import NetGymSim.Lte.RlcUmReceive

/-!
# The receive state after each event

A PDU whose numbers stand in the order of the map leaves a consistent state, any other leaves a
PDU outside the window or one with the number VR(UR) in the buffer.
-/

namespace NetGymSim.Lte
open NetGymSim.Lib
namespace LteRlcUm

section Front
variable {s u : LteRlcUm} {x : ℕ} {packet : List ℕ}

structure Fronted (t u v : LteRlcUm) (len : ℕ) : Prop where
  run : u.Run t.front len
  le : t.front + len ≤ 1024
  offset_le : t.offset t.front + len ≤ umWindowSize
  vrUr : v.vrUr.value = (t.front + len) % 1024
  vrUh : v.vrUh.value = t.vrUh.value
  rxBuffer : ∀ n, v.rxBuffer n =
    if t.front ≤ n ∧ n < t.front + len then none else u.rxBuffer n

theorem Placeable.fronted (h : s.Placeable x) (hm : Moved (s.placed x packet) u) :
    ∃ len, Fronted (s.placed x packet) u u.deliverFront len := by
  have hkeys : ∀ n, 1024 ≤ n → u.rxBuffer n = none := fun n hn => hm.none (h.keys hn)
  have hroom := hm.room
  rw [← hm.vrUr] at hroom
  obtain ⟨len, hrun, hle, hUr, -, hUh, -, hbuffer⟩ := deliverFront_spec hkeys hroom
  have hoffset := fun n => offset_congr hm.vrUh n
  have hfront := (s.placed x packet).front_offset_le
  have hlen := hrun.offset_le hkeys (by rw [hm.vrUh]; exact hm.none h.vrUh_free)
    u.vrUr.value_lt (by rw [hoffset, hm.vrUr]; exact Nat.le_of_lt hfront.2)
  rw [hoffset] at hlen
  simp only [hm.vrUr] at *
  exact ⟨len, hrun, hle, hlen, hUr, by rw [hUh, hm.vrUh], hbuffer⟩

theorem Fronted.offset {t v : LteRlcUm} {len : ℕ} (h : Fronted t u v len) :
    v.offset v.vrUr.value = t.offset t.front + len := by
  have hle := h.offset_le
  have hstart := t.windowStart_lt
  have hfront := t.front_offset_le.1
  rw [offset_congr h.vrUh, h.vrUr]
  unfold LteRlcUm.offset forward umWindowSize at *
  omega

/-- In the order of the map, everything that stays lies behind VR(UR) inside the window. -/
theorem Placeable.ordered (h : s.Placeable x) (hm : Moved (s.placed x packet) u) {v : LteRlcUm}
    {len : ℕ} (hf : Fronted (s.placed x packet) u v len) (ho : (s.placed x packet).InOrder) :
    ∀ n p, v.rxBuffer n = some p →
      n < 1024 ∧ v.offset v.vrUr.value < v.offset n ∧ v.offset n < umWindowSize := by
  intro n p hn
  have hbuffer := hf.rxBuffer n
  rw [hn] at hbuffer
  have hout : ¬ ((s.placed x packet).front ≤ n ∧ n < (s.placed x packet).front + len) := by
    intro hin
    rw [if_pos hin] at hbuffer
    cases hbuffer
  rw [if_neg hout] at hbuffer
  have hentry : ((s.placed x packet).rxBuffer n).isSome := by
    cases hnone : (s.placed x packet).rxBuffer n with
    | none => rw [hm.none hnone] at hbuffer; cases hbuffer
    | some p => rfl
  have hlt : n < 1024 := by
    by_contra hge
    rw [h.keys (by omega)] at hentry
    cases hentry
  have hinside : (s.placed x packet).offset n < umWindowSize := by
    by_contra hoffset
    have hcleared : (s.placed x packet).Cleared (List.range 1024) n := by
      refine ⟨List.mem_range.mpr hlt, fun m hm hle hsome hin => ?_⟩
      have hless := ho.outsideFirst n hlt hentry hoffset m (List.mem_range.mp hm) hsome hin
      omega
    rw [hm.gone n hcleared hoffset] at hbuffer
    cases hbuffer
  have hfront := h.front_le hlt hentry hinside
  have hne : n ≠ ((s.placed x packet).front + len) % 1024 := by
    intro heq
    have hle := hf.le
    have hrun := hf.run
    by_cases hend : (s.placed x packet).front + len < 1024
    · rw [Nat.mod_eq_of_lt hend] at heq
      rw [heq, hrun.2] at hbuffer
      cases hbuffer
    · have hzero : n = 0 := by omega
      subst hzero
      apply ho.noWrap
      refine ⟨fun m hm' hge => ?_, hentry, hinside⟩
      have hsome := hrun.1 (m - (s.placed x packet).front) (by omega)
      rw [show (s.placed x packet).front + (m - (s.placed x packet).front) = m by omega] at hsome
      cases hnone : (s.placed x packet).rxBuffer m with
      | none => rw [hm.none hnone] at hsome; cases hsome
      | some p => rfl
  have hUr := hf.offset
  have hle := hf.offset_le
  refine ⟨hlt, ?_, ?_⟩
  · rw [hUr, offset_congr hf.vrUh]
    by_contra hge
    have hfrontLt := (s.placed x packet).front_offset_le
    have hstart := (s.placed x packet).windowStart_lt
    have hle' := hf.le
    generalize (s.placed x packet).front = front at *
    unfold LteRlcUm.offset forward umWindowSize at *
    omega
  · rw [offset_congr hf.vrUh]
    exact hinside

/-- Out of the order of the map, what is claimed does not hold of the buffer. -/
theorem Placeable.disordered (h : s.Placeable x) (hm : Moved (s.placed x packet) u)
    {v : LteRlcUm} {len : ℕ} (hf : Fronted (s.placed x packet) u v len)
    (hfree : v.rxBuffer v.vrUr.value = none)
    (hinside : ∀ n p, v.rxBuffer n = some p → n < 1024 ∧ v.offset n < umWindowSize) :
    (s.placed x packet).InOrder := by
  have hrunInside : ∀ n, (s.placed x packet).front ≤ n → n < (s.placed x packet).front + len →
      (s.placed x packet).offset n < umWindowSize := by
    intro n hge hless
    have hle := hf.le
    have hlen := hf.offset_le
    have hstart := (s.placed x packet).windowStart_lt
    generalize (s.placed x packet).front = front at *
    unfold LteRlcUm.offset forward umWindowSize at *
    omega
  constructor
  · intro n hn hentry hout m hm' hsome hin
    by_contra hnot
    have hkept : v.rxBuffer n = (s.placed x packet).rxBuffer n := by
      rw [hf.rxBuffer n, if_neg fun hrun => hout (hrunInside n hrun.1 hrun.2)]
      apply hm.stay n
      intro hc
      exact hc.1.2 m (List.mem_range.mpr hm') (by omega) hsome hin
    obtain ⟨p, hp⟩ := Option.isSome_iff_exists.mp hentry
    have hoffset := (hinside n p (hkept.trans hp)).2
    rw [offset_congr hf.vrUh] at hoffset
    exact hout hoffset
  · rintro ⟨hall, hzero, hin⟩
    have hfront := (s.placed x packet).front_offset_le
    have hkept : ∀ n, (s.placed x packet).offset n < umWindowSize →
        u.rxBuffer n = (s.placed x packet).rxBuffer n := by
      intro n hoffset
      exact hm.stay n fun hc => hc.2 hoffset
    have hrun : (s.placed x packet).Run (s.placed x packet).front
        (1024 - (s.placed x packet).front) := by
      refine ⟨fun j hj => hall _ (by omega) (by omega), ?_⟩
      rw [show (s.placed x packet).front + (1024 - (s.placed x packet).front) = 1024 by omega]
      exact h.keys (le_refl _)
    have hless := hrun.offset_le (fun n hn => h.keys hn) h.vrUh_free hfront.1
      (Nat.le_of_lt hfront.2)
    have hle := hf.le
    by_cases hend : (s.placed x packet).front + len < 1024
    · have hoffset : (s.placed x packet).offset ((s.placed x packet).front + len) <
          umWindowSize := by
        have hstart := (s.placed x packet).windowStart_lt
        generalize (s.placed x packet).front = front at *
        unfold LteRlcUm.offset forward umWindowSize at *
        omega
      have hsome := hall _ hend (by omega)
      rw [← hkept _ hoffset, hf.run.2] at hsome
      cases hsome
    · have hUr : v.vrUr.value = 0 := by
        rw [hf.vrUr]
        omega
      have hbuffer := hf.rxBuffer 0
      rw [if_neg (by unfold umWindowSize at hless; omega), hkept 0 hin, ← hUr, hfree,
        hUr] at hbuffer
      rw [← hbuffer] at hzero
      cases hzero

end Front
/-! ### The reordering timer -/

section Timer
variable {s t v : LteRlcUm}

structure Based (s : LteRlcUm) : Prop where
  vrUr : s.vrUr.modulusBase = s.windowStart
  vrUx : s.vrUx.modulusBase = s.windowStart
  vrUh : s.vrUh.modulusBase = s.windowStart

theorem Based.gt_iff (h : Based s) : s.vrUh.gt s.vrUr ↔ s.offset s.vrUr.value < umWindowSize := by
  rw [SequenceNumber10.gt_iff (h.vrUh.trans h.vrUr.symm), dist_eq_offset h.vrUr,
    dist_eq_offset h.vrUh, offset_vrUh]

theorem Based.le_iff (h : Based s) :
    s.vrUx.le s.vrUr ↔ s.offset s.vrUx.value ≤ s.offset s.vrUr.value := by
  rw [SequenceNumber10.le_iff (h.vrUx.trans h.vrUr.symm), dist_eq_offset h.vrUr,
    dist_eq_offset h.vrUx]

structure TimerSound (s : LteRlcUm) : Prop where
  running : s.reorderingTimer ↔ s.offset s.vrUr.value < umWindowSize
  timed : s.reorderingTimer →
    s.offset s.vrUr.value < s.offset s.vrUx.value ∧ s.offset s.vrUx.value ≤ umWindowSize
  based : Based s

structure SameFront (s t : LteRlcUm) : Prop where
  rxBuffer : t.rxBuffer = s.rxBuffer
  vrUr : t.vrUr.value = s.vrUr.value
  vrUh : t.vrUh.value = s.vrUh.value

theorem SameFront.trans {u : LteRlcUm} (h : SameFront s t) (h' : SameFront t u) :
    SameFront s u :=
  ⟨h'.rxBuffer.trans h.rxBuffer, h'.vrUr.trans h.vrUr, h'.vrUh.trans h.vrUh⟩

theorem SameFront.offset (h : SameFront s t) (n : ℕ) : t.offset n = s.offset n :=
  offset_congr h.vrUh n

theorem setBases_spec (s : LteRlcUm) :
    SameFront s s.setBases ∧ Based s.setBases := by
  have hvalue := s.sub_value
  unfold setBases
  dsimp only
  generalize s.vrUh.sub umWindowSize = base at hvalue ⊢
  exact ⟨⟨rfl, rfl, rfl⟩, ⟨hvalue, hvalue, hvalue⟩⟩

theorem stopReordering_spec (hb : Based s) :
    SameFront s s.stopReordering ∧ Based s.stopReordering ∧
      (s.stopReordering.reorderingTimer →
        s.stopReordering.offset s.stopReordering.vrUr.value <
            s.stopReordering.offset s.stopReordering.vrUx.value ∧
          s.stopReordering.offset s.stopReordering.vrUx.value ≤ umWindowSize) := by
  have hinside := s.isInside_iff s.vrUx
  have hend := s.offset_vrUh
  have hle := hb.le_iff
  unfold stopReordering
  split_ifs with htimer hstop
  · refine ⟨⟨rfl, rfl, rfl⟩, ⟨hb.vrUr, hb.vrUx, hb.vrUh⟩, fun hfalse => ?_⟩
    cases hfalse
  · obtain ⟨hux, hwindow⟩ := not_or.mp hstop
    refine ⟨⟨rfl, rfl, rfl⟩, hb, fun _ => ⟨?_, ?_⟩⟩
    · rw [hle] at hux
      omega
    · by_cases heq : s.vrUx.value = s.vrUh.value
      · rw [heq, hend]
      · by_contra hout
        apply hwindow
        refine ⟨fun hin => ?_, heq⟩
        have hless := hinside.mp hin
        omega
  · exact ⟨⟨rfl, rfl, rfl⟩, hb, fun hrun => absurd hrun htimer⟩

theorem startReordering_spec (hb : Based s) (hle : s.offset s.vrUr.value ≤ umWindowSize)
    (htimed : s.reorderingTimer →
      s.offset s.vrUr.value < s.offset s.vrUx.value ∧ s.offset s.vrUx.value ≤ umWindowSize) :
    SameFront s s.startReordering ∧ TimerSound s.startReordering := by
  have hend := s.offset_vrUh
  have hgt := hb.gt_iff
  unfold startReordering
  by_cases hrun : s.reorderingTimer
  · have hbetween := htimed hrun
    rw [if_neg (not_not.mpr hrun)]
    exact ⟨⟨rfl, rfl, rfl⟩, ⟨iff_of_true hrun (by omega), htimed, hb⟩⟩
  · rw [if_pos hrun]
    by_cases hless : s.vrUh.gt s.vrUr
    · have hfront := hgt.mp hless
      have hsame : SameFront s { s with reorderingTimer := true, vrUx := s.vrUh } :=
        ⟨rfl, rfl, rfl⟩
      rw [if_pos hless]
      refine ⟨hsame, ⟨iff_of_true rfl ?_, fun _ => ⟨?_, ?_⟩, ⟨hb.vrUr, hb.vrUh, hb.vrUh⟩⟩⟩
      · rw [hsame.offset]
        exact hfront
      · rw [hsame.offset, hsame.offset, hend]
        exact hfront
      · rw [hsame.offset, hend]
    · rw [if_neg hless]
      refine ⟨⟨rfl, rfl, rfl⟩, ⟨iff_of_false hrun fun hlt => hless (hgt.mpr hlt), ?_, hb⟩⟩
      intro htrue
      exact absurd htrue hrun

theorem timers_spec (hle : v.offset v.vrUr.value ≤ umWindowSize) :
    SameFront v v.setBases.stopReordering.startReordering ∧
      TimerSound v.setBases.stopReordering.startReordering := by
  obtain ⟨hsame, hbased⟩ := v.setBases_spec
  obtain ⟨hsame', hbased', htimed⟩ := stopReordering_spec hbased
  have hsame'' := hsame.trans hsame'
  obtain ⟨hstart, hsound⟩ := startReordering_spec hbased'
    (by rw [hsame''.offset, hsame''.vrUr]; exact hle) htimed
  exact ⟨hsame''.trans hstart, hsound⟩

end Timer

/-! ### The events -/

def Discards (s : LteRlcUm) (x : ℕ) : Prop :=
  s.offset x < s.offset s.vrUr.value ∨
    (s.offset s.vrUr.value < s.offset x ∧ s.offset x < umWindowSize ∧ (s.rxBuffer x).isSome)

section Events
variable {s : LteRlcUm} {x : ℕ} {packet : List ℕ}

theorem RxConsistent.of_front {v w : LteRlcUm} (hsame : SameFront v w) (hsound : TimerSound w)
    (hle : v.offset v.vrUr.value ≤ umWindowSize)
    (hbuffered : ∀ n p, v.rxBuffer n = some p →
      n < 1024 ∧ v.offset v.vrUr.value < v.offset n ∧ v.offset n < umWindowSize) :
    RxConsistent w where
  front_le := by
    rw [hsame.offset, hsame.vrUr]
    exact hle
  buffered := by
    intro n p hn
    rw [hsame.offset, hsame.offset, hsame.vrUr]
    exact hbuffered n p (by rw [← hsame.rxBuffer, hn])
  running := hsound.running
  timed := hsound.timed
  bases := fun _ => ⟨hsound.based.vrUr, hsound.based.vrUx, hsound.based.vrUh⟩

theorem placePdu_eq {sn : SequenceNumber10} (hvalue : sn.value = x) :
    s.setReceiveBases.placePdu sn packet =
      ((s.arrived x packet).moveWindow
        sn).deliverFront.setBases.stopReordering.startReordering := by
  have hbuffer : s.setReceiveBases.rxBuffer = s.rxBuffer := by
    unfold setReceiveBases
    generalize s.vrUh.sub umWindowSize = base
    rfl
  unfold LteRlcUm.placePdu arrived
  rw [hbuffer, hvalue]

/-- A PDU that is placed keeps the state consistent in the order of the map. Otherwise what is
claimed does not hold. -/
theorem Placeable.placePdu (h : s.Placeable x) {sn : SequenceNumber10} (hvalue : sn.value = x) :
    ((s.placed x packet).InOrder → RxConsistent (s.setReceiveBases.placePdu sn packet)) ∧
      (¬ (s.placed x packet).InOrder →
        ¬ ReceiveInvariant (s.setReceiveBases.placePdu sn packet)) := by
  have hmoved : Moved (s.placed x packet) ((s.arrived x packet).moveWindow sn) := by
    by_cases hx : s.offset x < umWindowSize
    · rw [moveWindow_inside (by rwa [arrived_offset, hvalue])]
      exact h.moved_inside hx
    · exact h.moved_outside hx hvalue
  rw [placePdu_eq hvalue]
  generalize (s.arrived x packet).moveWindow sn = u at hmoved ⊢
  obtain ⟨len, hf⟩ := h.fronted hmoved
  have hle : u.deliverFront.offset u.deliverFront.vrUr.value ≤ umWindowSize := by
    rw [hf.offset]
    exact hf.offset_le
  generalize u.deliverFront = v at hf hle ⊢
  obtain ⟨hsame, hsound⟩ := timers_spec hle
  generalize v.setBases.stopReordering.startReordering = w at hsame hsound ⊢
  constructor
  · intro ho
    exact .of_front hsame hsound hle (h.ordered hmoved hf ho)
  · intro hno hclaim
    apply hno
    have hfree := hclaim.front
    rw [hsame.rxBuffer, hsame.vrUr] at hfree
    apply h.disordered hmoved hf hfree
    intro n p hn
    have hin := hclaim.inside n p (by rw [hsame.rxBuffer, hn])
    rwa [hsame.offset] at hin

theorem discarded_iff (s : LteRlcUm) {sn : SequenceNumber10}
    (hbase : sn.modulusBase = s.windowStart) :
    s.setReceiveBases.discarded sn ↔ s.Discards sn.value := by
  have hstart := s.sub_value
  have hend := s.offset_vrUh
  unfold discarded setReceiveBases Discards
  dsimp only
  generalize s.vrUh.sub umWindowSize = base at hstart ⊢
  have hUr : (s.vrUr.setModulusBase base).dist = s.offset s.vrUr.value := dist_eq_offset hstart
  have hUh : (s.vrUh.setModulusBase base).dist = umWindowSize := by
    rw [← hend]
    exact dist_eq_offset hstart
  have hsn : sn.dist = s.offset sn.value := dist_eq_offset hbase
  have hlow : ((s.vrUh.setModulusBase base).sub umWindowSize).dist = 0 := by
    rw [SequenceNumber10.dist_eq_zero, SequenceNumber10.sub_modulusBase,
      SequenceNumber10.setModulusBase_modulusBase, SequenceNumber10.sub_value,
      SequenceNumber10.setModulusBase_value, hstart]
    rfl
  have hb : base.value = sn.modulusBase := hstart.trans hbase.symm
  rw [decide_eq_true_iff, SequenceNumber10.lt_iff hb, SequenceNumber10.lt_iff hb.symm,
    SequenceNumber10.lt_iff hb.symm, SequenceNumber10.le_iff (by
      rw [SequenceNumber10.sub_modulusBase]; exact hb), hUr, hUh, hsn, hlow]
  rw [or_comm, and_iff_right (Nat.zero_le _)]

theorem SameFront.setReceiveBases (s : LteRlcUm) : SameFront s s.setReceiveBases := by
  unfold LteRlcUm.setReceiveBases
  dsimp only
  generalize s.vrUh.sub umWindowSize = base
  exact ⟨rfl, rfl, rfl⟩

theorem deserialize_sequenceNumber {header : LteRlcHeader} {data : List ℕ}
    (h : ({} : LteRlcHeader).deserialize packet = some (header, data)) :
    header.sequenceNumber < 1024 := by
  unfold LteRlcHeader.deserialize at h
  split at h
  · dsimp only at h
    split_ifs at h
    · obtain ⟨rfl, -⟩ := Prod.mk.inj (Option.some.inj h)
      exact Nat.mod_lt _ (by decide)
    · obtain ⟨pairs, -, heq⟩ := Option.map_eq_some_iff.mp h
      obtain ⟨rfl, -⟩ := Prod.mk.inj heq
      exact Nat.mod_lt _ (by decide)
  · cases h

theorem RxConsistent.setReceiveBases (h : RxConsistent s) : RxConsistent s.setReceiveBases := by
  have hsame := SameFront.setReceiveBases s
  have hother : s.setReceiveBases.vrUx = s.vrUx ∧
      s.setReceiveBases.reorderingTimer = s.reorderingTimer ∧
      s.setReceiveBases.vrUr.modulusBase = s.windowStart ∧
      s.setReceiveBases.vrUh.modulusBase = s.windowStart := by
    have hstart := s.sub_value
    unfold LteRlcUm.setReceiveBases
    dsimp only
    generalize s.vrUh.sub umWindowSize = base at hstart ⊢
    exact ⟨rfl, rfl, hstart, hstart⟩
  have hwindow : s.setReceiveBases.windowStart = s.windowStart := by
    unfold windowStart
    rw [hsame.vrUh]
  generalize s.setReceiveBases = t at hsame hother hwindow ⊢
  obtain ⟨hUx, htimer, hUr, hUh⟩ := hother
  refine ⟨?_, ?_, ?_, ?_, ?_⟩
  · rw [hsame.offset, hsame.vrUr]
    exact h.front_le
  · intro n p hn
    rw [hsame.offset, hsame.offset, hsame.vrUr]
    exact h.buffered n p (by rw [← hsame.rxBuffer, hn])
  · rw [htimer, hsame.offset, hsame.vrUr]
    exact h.running
  · intro hrun
    rw [hsame.offset, hsame.offset, hsame.vrUr, hUx]
    exact h.timed (htimer ▸ hrun)
  · intro hrun
    rw [hUr, hUx, hUh, hwindow]
    exact ⟨rfl, (h.bases (htimer ▸ hrun)).2.1, rfl⟩

/-- The condition: what arrives is discarded or stands in the order of the map. -/
def KeepsOrder (s : LteRlcUm) : Event → Prop
  | .receivePdu packet =>
      ∀ read ∈ ({} : LteRlcHeader).deserialize packet,
        s.Discards read.1.sequenceNumber ∨ (s.placed read.1.sequenceNumber packet).InOrder
  | _ => True

theorem RxConsistent.receivePdu (h : RxConsistent s) (packet : List ℕ) :
    (s.KeepsOrder (.receivePdu packet) → RxConsistent (s.doReceivePdu packet)) ∧
      (¬ s.KeepsOrder (.receivePdu packet) → ¬ ReceiveInvariant (s.doReceivePdu packet)) := by
  have hkeeps : s.KeepsOrder (.receivePdu packet) ↔
      ∀ read, ({} : LteRlcHeader).deserialize packet = some read →
        s.Discards read.1.sequenceNumber ∨ (s.placed read.1.sequenceNumber packet).InOrder :=
    Iff.rfl
  rw [hkeeps]
  unfold doReceivePdu
  cases hheader : ({} : LteRlcHeader).deserialize packet with
  | none => exact ⟨fun _ => h, fun hno => absurd (fun read hread => by cases hread) hno⟩
  | some read =>
    obtain ⟨header, data⟩ := read
    have hlt := deserialize_sequenceNumber hheader
    have hvalue : (SequenceNumber10.ofValue header.sequenceNumber).value = header.sequenceNumber :=
      Nat.mod_eq_of_lt hlt
    have hstart := s.sub_value
    simp only [Option.some.injEq, forall_eq']
    generalize s.vrUh.sub umWindowSize = base at hstart ⊢
    generalize SequenceNumber10.ofValue header.sequenceNumber = sn at hvalue ⊢
    have hdiscarded := @discarded_iff s (sn.setModulusBase base) hstart
    rw [SequenceNumber10.setModulusBase_value, hvalue] at hdiscarded
    by_cases hd : s.Discards header.sequenceNumber
    · rw [if_pos (hdiscarded.mpr hd)]
      exact ⟨fun _ => h.setReceiveBases, fun hno => absurd (Or.inl hd) hno⟩
    · have hplaceable : s.Placeable header.sequenceNumber := by
        refine ⟨h, hlt, ?_⟩
        by_contra hless
        exact hd (.inl (by omega))
      rw [if_neg fun hyes => hd (hdiscarded.mp hyes), or_iff_right hd]
      exact hplaceable.placePdu hvalue

/-! ### Expiry -/

theorem skipReceived_spec (fuel : ℕ) {sn : SequenceNumber10}
    (hbuffered : ∀ n, (s.rxBuffer n).isSome → s.offset n < umWindowSize)
    (hb : sn.modulusBase = s.windowStart) (hle : sn.dist ≤ umWindowSize)
    (hfuel : umWindowSize < sn.dist + fuel) :
    (s.skipReceived fuel sn).modulusBase = s.windowStart ∧
      sn.dist ≤ (s.skipReceived fuel sn).dist ∧ (s.skipReceived fuel sn).dist ≤ umWindowSize ∧
      s.rxBuffer (s.skipReceived fuel sn).value = none := by
  induction fuel generalizing sn with
  | zero => omega
  | succ fuel ih =>
    unfold skipReceived
    by_cases hentry : (s.rxBuffer sn.value).isSome
    · rw [if_pos hentry]
      have hless := hbuffered _ hentry
      rw [← dist_eq_offset hb] at hless
      have hsucc : sn.succ.dist = sn.dist + 1 :=
        SequenceNumber10.dist_succ (by unfold umWindowSize at hless; omega)
      obtain ⟨hbase, hge, hend, hfree⟩ := @ih sn.succ hb (by omega) (by omega)
      exact ⟨hbase, by omega, hend, hfree⟩
    · rw [if_neg hentry]
      exact ⟨hb, le_refl _, hle, Option.not_isSome_iff_eq_none.mp hentry⟩

theorem RxConsistent.expireReorderingTimer (h : RxConsistent s) (hrun : s.reorderingTimer) :
    RxConsistent s.expireReorderingTimer := by
  obtain ⟨hbUr, hbUx, hbUh⟩ := h.bases hrun
  obtain ⟨hfront, htimed⟩ := h.timed hrun
  have hinside : ∀ n, (s.rxBuffer n).isSome → s.offset n < umWindowSize := by
    intro n hn
    obtain ⟨p, hp⟩ := Option.isSome_iff_exists.mp hn
    exact (h.buffered n p hp).2.2
  have hUx := dist_eq_offset hbUx
  have hUr := dist_eq_offset hbUr
  obtain ⟨hbase, hge, hle, hfree⟩ := skipReceived_spec 1024 hinside hbUx
    (by rw [hUx]; exact htimed) (by unfold umWindowSize; omega)
  have heq : s.expireReorderingTimer =
      (reassembleSnInterval 1024
        { s with reorderingTimer := false, vrUr := s.skipReceived 1024 s.vrUx } s.vrUr
        (s.skipReceived 1024 s.vrUx)).startReordering := by
    unfold LteRlcUm.expireReorderingTimer
    dsimp only
    generalize s.skipReceived 1024 s.vrUx = sn at hbase hge hle
    obtain ⟨hsame, -⟩ := @reassembleSnInterval_spec 1024
      { s with reorderingTimer := false, vrUr := sn } s.vrUr sn (hbUr.trans hbase.symm)
      (by omega) (by unfold umWindowSize at hle; omega)
    have hstopped := hsame.timer
    generalize reassembleSnInterval 1024 _ _ _ = t at hstopped ⊢
    have hnot : ¬ t.reorderingTimer = true := by
      rw [hstopped]
      exact Bool.false_ne_true
    exact (if_pos hnot).symm
  rw [heq]
  generalize s.skipReceived 1024 s.vrUx = sn at hbase hge hle hfree ⊢
  have hsn := dist_eq_offset hbase
  obtain ⟨hsame, hUh, hbuffer⟩ := @reassembleSnInterval_spec 1024
    { s with reorderingTimer := false, vrUr := sn } s.vrUr sn (hbUr.trans hbase.symm) (by omega)
    (by unfold umWindowSize at hle; omega)
  have hUr' := hsame.vrUr
  have hUx' := hsame.vrUx
  have htimer' := hsame.timer
  generalize reassembleSnInterval 1024 _ _ _ = t at hsame hUh hbuffer hUr' hUx' htimer' ⊢
  dsimp only at hUh hUr' hUx' htimer' hbuffer
  have hoffset : ∀ n, t.offset n = s.offset n := fun n => offset_congr (by rw [hUh]) n
  have hwindow : t.windowStart = s.windowStart := by
    unfold windowStart
    rw [hUh]
  have hbased : Based t := by
    refine ⟨?_, ?_, ?_⟩
    · rw [hUr', hbase, hwindow]
    · rw [hUx', hbUx, hwindow]
    · rw [hUh, hbUh, hwindow]
  have hle' : t.offset t.vrUr.value ≤ umWindowSize := by
    rw [hoffset, hUr', ← hsn]
    exact hle
  obtain ⟨hstart, hsound⟩ := startReordering_spec hbased hle'
    (fun hrun => by rw [htimer'] at hrun; cases hrun)
  apply RxConsistent.of_front hstart hsound hle'
  intro n p hn
  rw [hbuffer n] at hn
  split_ifs at hn with hgone
  obtain ⟨hlt, hbehind, hend⟩ := h.buffered n p hn
  rw [hoffset, hoffset, hUr', ← hsn]
  refine ⟨hlt, ?_, hend⟩
  have hne : s.offset n ≠ sn.dist := by
    rw [hsn]
    intro heq
    rw [offset_inj hlt sn.value_lt heq, hfree] at hn
    cases hn
  have hforward : forward 1024 n s.vrUr.modulusBase = s.offset n := by
    rw [hbUr]
    rfl
  omega

/-! ### Runs -/

theorem RxConsistent.of_rx {t : LteRlcUm} (h : RxConsistent s) (hbuffer : t.rxBuffer = s.rxBuffer)
    (hUr : t.vrUr = s.vrUr) (hUx : t.vrUx = s.vrUx) (hUh : t.vrUh = s.vrUh)
    (htimer : t.reorderingTimer = s.reorderingTimer) : RxConsistent t := by
  have hoffset : ∀ n, t.offset n = s.offset n := fun n => offset_congr (by rw [hUh]) n
  have hwindow : t.windowStart = s.windowStart := by
    unfold windowStart
    rw [hUh]
  refine ⟨?_, ?_, ?_, ?_, ?_⟩
  · rw [hoffset, hUr]
    exact h.front_le
  · intro n p hn
    rw [hoffset, hoffset, hUr]
    exact h.buffered n p (by rw [← hbuffer, hn])
  · rw [htimer, hoffset, hUr]
    exact h.running
  · rw [htimer, hoffset, hoffset, hUr, hUx]
    exact h.timed
  · rw [htimer, hUr, hUx, hUh, hwindow]
    exact h.bases

theorem RxConsistent.next {e : Event} (h : RxConsistent s) (he : machine.enabled s e) :
    (s.KeepsOrder e → RxConsistent (s.next e)) ∧
      (¬ s.KeepsOrder e → ¬ ReceiveInvariant (s.next e)) := by
  cases e with
  | transmitPdcpPdu p =>
    refine ⟨fun _ => ?_, fun hno => absurd trivial hno⟩
    show RxConsistent (s.doTransmitPdcpPdu p)
    unfold doTransmitPdcpPdu
    dsimp only
    split_ifs
    · exact h.of_rx rfl rfl rfl rfl rfl
    · exact h.of_rx rfl rfl rfl rfl rfl
  | notifyTxOpportunity bytes =>
    refine ⟨fun _ => ?_, fun hno => absurd trivial hno⟩
    show RxConsistent (s.doNotifyTxOpportunity bytes).1
    unfold doNotifyTxOpportunity
    split_ifs
    · exact h
    · cases s.txBuffer with
      | nil => exact h
      | cons first behind => exact h.of_rx rfl rfl rfl rfl rfl
  | receivePdu packet => exact h.receivePdu packet
  | expireReorderingTimer =>
    exact ⟨fun _ => h.expireReorderingTimer he, fun hno => absurd trivial hno⟩
  | expireRbsTimer =>
    refine ⟨fun _ => ?_, fun hno => absurd trivial hno⟩
    show RxConsistent s.expireRbsTimer
    unfold expireRbsTimer
    split_ifs
    · exact h
    · exact h.of_rx rfl rfl rfl rfl rfl

theorem rxConsistent_initial (config : RlcUmConfig) : RxConsistent (initial config) := by
  have hend := (initial config).offset_vrUh
  have hoffset : (initial config).offset (initial config).vrUr.value = umWindowSize := hend
  refine ⟨le_of_eq hoffset, fun n p hn => (by cases hn), ?_, fun hrun => (by cases hrun),
    fun hrun => (by cases hrun)⟩
  rw [hoffset]
  exact iff_of_false Bool.false_ne_true (lt_irrefl _)

/-- In a run, what is claimed holds after every event exactly when every PDU that is placed
stands in the order of the map. -/
theorem receive_state_sound_iff (config : RlcUmConfig) {es : List Event}
    (hes : machine.Permits (initial config) es) :
    (∀ done, done <+: es → ReceiveInvariant (machine.exec (initial config) done)) ↔
      ∀ done e, done ++ [e] <+: es → KeepsOrder (machine.exec (initial config) done) e := by
  rw [← Machine.Permits.restrict_iff_steps hes]
  symm
  apply Machine.Permits.restrict_iff_weak (P := RxConsistent) (fun s h => h.receiveInvariant)
    (fun s e h he => (h.next he).1) (fun s e h he => (h.next he).2) (rxConsistent_initial config)
    hes

def bare (sequenceNumber : ℕ) : List ℕ := [sequenceNumber / 256, sequenceNumber % 256, 7]

/-- VR(UR) comes to 1023 and the PDUs with numbers 0 and 1023 arrive in this order. -/
def wrapping : List Event :=
  [.receivePdu (bare 511), .receivePdu (bare 1022), .expireReorderingTimer, .receivePdu (bare 0),
    .receivePdu (bare 1023)]

theorem wrapping_sound_iff :
    (∀ done, done <+: wrapping → ReceiveInvariant (machine.exec (initial {}) done)) ↔
      ∀ done e, done ++ [e] <+: wrapping → KeepsOrder (machine.exec (initial {}) done) e :=
  receive_state_sound_iff {} (by decide +kernel)

/-- The PDU with number 0 stays in the buffer while VR(UR) is 0. -/
theorem wrapping_leaves_front_buffered :
    machine.Permits (initial {}) wrapping ∧
      ¬ ReceiveInvariant (machine.exec (initial {}) wrapping) := by
  refine ⟨by decide +kernel, fun h => ?_⟩
  have hfront : ((machine.exec (initial {}) wrapping).rxBuffer
      (machine.exec (initial {}) wrapping).vrUr.value).isSome := by
    decide +kernel
  rw [h.front] at hfront
  cases hfront

end Events
end LteRlcUm
end NetGymSim.Lte

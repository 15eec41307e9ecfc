import NetGymSim.Gma.NsPfRuns
import NetGymSim.Gma.NsPfUplink

/-!
# Buffer reports against grants

`UpdateDlRlcBufferInfo` and `UpdateUlRlcBufferInfo` take the overhead off a size before they look
whether the size is that large. A grant below the overhead then counts as one of billions of bytes
and empties the queue.
-/

namespace NetGymSim.Gma
open NetGymSim.Lib

namespace RlcBufferReq
variable {req req' : RlcBufferReq} {lcid size : ℕ}

def total (req : RlcBufferReq) : ℕ :=
  req.rlcTransmissionQueueSize + req.rlcRetransmissionQueueSize + req.rlcStatusPduSize

/-- The sizes fit their types. -/
structure Reported (req : RlcBufferReq) : Prop where
  transmission : req.rlcTransmissionQueueSize < 4294967296
  retransmission : req.rlcRetransmissionQueueSize < 4294967296
  status : req.rlcStatusPduSize < 65536

structure Kept (req req' : RlcBufferReq) (size : ℕ) : Prop where
  transmission : req'.rlcTransmissionQueueSize ≤ req.rlcTransmissionQueueSize
  retransmission : req'.rlcRetransmissionQueueSize ≤ req.rlcRetransmissionQueueSize
  status : req'.rlcStatusPduSize ≤ req.rlcStatusPduSize
  total : req.total ≤ req'.total + size

def overhead (lcid : ℕ) : ℕ := if lcid = 1 then 4 else 2

/-- A grant that does not cover its own overhead, for a transmission queue that is longer. -/
def BelowOverhead (req : RlcBufferReq) (lcid size : ℕ) : Prop :=
  size < overhead lcid ∧ size < req.rlcTransmissionQueueSize ∧
    ¬ (0 < req.rlcStatusPduSize ∧ req.rlcStatusPduSize ≤ size) ∧
    ¬ (0 < req.rlcRetransmissionQueueSize ∧ req.rlcRetransmissionQueueSize ≤ size)

def wholePdus (req : RlcBufferReq) : ℕ :=
  (if req.rlcStatusPduSize = 0 then 0 else 1) + if req.rlcRetransmissionQueueSize = 0 then 0 else 1

theorem overhead_le (lcid : ℕ) : 2 ≤ overhead lcid ∧ overhead lcid ≤ 4 := by
  unfold overhead
  split_ifs <;> omega

theorem Kept.refl (req : RlcBufferReq) (size : ℕ) : req.Kept req size :=
  ⟨le_refl _, le_refl _, le_refl _, Nat.le_add_right _ _⟩

section Sent

theorem sent_status (h : 0 < req.rlcStatusPduSize ∧ req.rlcStatusPduSize ≤ size) :
    req.sent lcid size = { req with rlcStatusPduSize := 0 } := by
  simp only [sent, if_pos h]

theorem sent_retransmission (hs : ¬ (0 < req.rlcStatusPduSize ∧ req.rlcStatusPduSize ≤ size))
    (h : 0 < req.rlcRetransmissionQueueSize ∧ req.rlcRetransmissionQueueSize ≤ size) :
    req.sent lcid size = { req with rlcRetransmissionQueueSize := 0 } := by
  simp only [sent, if_neg hs, if_pos h]

theorem sent_transmission (lcid : ℕ) (hreq : req.Reported)
    (hs : ¬ (0 < req.rlcStatusPduSize ∧ req.rlcStatusPduSize ≤ size))
    (hr : ¬ (0 < req.rlcRetransmissionQueueSize ∧ req.rlcRetransmissionQueueSize ≤ size)) :
    req.sent lcid size = { req with
      rlcTransmissionQueueSize :=
        req.rlcTransmissionQueueSize - sub32 size (overhead lcid) } := by
  have hlt : req.rlcTransmissionQueueSize < 4294967296 := hreq.transmission
  simp only [sent, if_neg hs, if_neg hr]
  by_cases ht : 0 < req.rlcTransmissionQueueSize
  · rw [if_pos ht]
    by_cases hle : req.rlcTransmissionQueueSize ≤ sub32 size (overhead lcid)
    · rw [overhead] at hle ⊢
      rw [if_pos hle, Nat.sub_eq_zero_of_le hle]
    · rw [overhead] at hle ⊢
      rw [if_neg hle, sub32_of_le hlt (by omega)]
  · rw [if_neg ht]
    have hzero : req.rlcTransmissionQueueSize = 0 := by omega
    simp only [hzero, Nat.zero_sub]
    rw [← hzero]

theorem sent_kept_iff (hreq : req.Reported) (hsize : size < 65536) :
    req.Kept (req.sent lcid size) size ↔ ¬ req.BelowOverhead lcid size := by
  obtain ⟨htwo, hfour⟩ := overhead_le lcid
  by_cases hs : 0 < req.rlcStatusPduSize ∧ req.rlcStatusPduSize ≤ size
  · rw [sent_status hs]
    refine iff_of_true ⟨le_refl _, le_refl _, Nat.zero_le _, ?_⟩ fun h => h.2.2.1 hs
    simp only [total]
    omega
  by_cases hr : 0 < req.rlcRetransmissionQueueSize ∧ req.rlcRetransmissionQueueSize ≤ size
  · rw [sent_retransmission hs hr]
    refine iff_of_true ⟨le_refl _, Nat.zero_le _, le_refl _, ?_⟩ fun h => h.2.2.2 hr
    simp only [total]
    omega
  rw [sent_transmission lcid hreq hs hr]
  have hlt : req.rlcTransmissionQueueSize < 4294967296 := hreq.transmission
  by_cases hover : size < overhead lcid
  · have hwrap : sub32 size (overhead lcid) = 4294967296 - (overhead lcid - size) :=
      sub32_of_lt (by omega) hover
    constructor
    · intro hkept hbelow
      have htotal := hkept.total
      have hlong := hbelow.2.1
      simp only [total] at htotal
      omega
    · intro hcond
      have hshort : req.rlcTransmissionQueueSize ≤ size := by
        by_contra hlong
        exact hcond ⟨hover, by omega, hs, hr⟩
      refine ⟨Nat.sub_le _ _, le_refl _, le_refl _, ?_⟩
      simp only [total]
      omega
  · have hplain : sub32 size (overhead lcid) = size - overhead lcid :=
      sub32_of_le (by omega) (by omega)
    refine iff_of_true ⟨Nat.sub_le _ _, le_refl _, le_refl _, ?_⟩ fun h => hover h.1
    simp only [total]
    omega

theorem sent_reported (hreq : req.Reported) : (req.sent lcid size).Reported := by
  by_cases hs : 0 < req.rlcStatusPduSize ∧ req.rlcStatusPduSize ≤ size
  · rw [sent_status hs]
    exact ⟨hreq.transmission, hreq.retransmission, Nat.succ_pos _⟩
  by_cases hr : 0 < req.rlcRetransmissionQueueSize ∧ req.rlcRetransmissionQueueSize ≤ size
  · rw [sent_retransmission hs hr]
    exact ⟨hreq.transmission, Nat.succ_pos _, hreq.status⟩
  rw [sent_transmission lcid hreq hs hr]
  exact ⟨by have := hreq.transmission; dsimp only; omega, hreq.retransmission, hreq.status⟩

end Sent

theorem sent_drains {sizes : List ℕ} (hreq : req.Reported)
    (hsizes : ∀ size ∈ sizes, size < 65536 ∧ overhead lcid ≤ size ∧ req.rlcStatusPduSize ≤ size ∧
      req.rlcRetransmissionQueueSize ≤ size)
    (hwhole : req.wholePdus ≤ sizes.length)
    (hpayload : req.rlcTransmissionQueueSize ≤
      ((sizes.drop req.wholePdus).map (· - overhead lcid)).sum) :
    sizes.foldl (fun req size => req.sent lcid size) req = ⟨0, 0, 0⟩ := by
  induction sizes generalizing req with
  | nil =>
    have hzero : req.rlcStatusPduSize = 0 ∧ req.rlcRetransmissionQueueSize = 0 := by
      simp only [wholePdus, List.length_nil] at hwhole
      split_ifs at hwhole <;> omega
    have htx : req.rlcTransmissionQueueSize = 0 := by simpa using hpayload
    obtain ⟨tx, retx, status⟩ := req
    obtain ⟨rfl, rfl⟩ := hzero
    obtain rfl := htx
    rfl
  | cons size sizes ih =>
    rw [List.foldl_cons]
    obtain ⟨hlt, hover, hst, hrt⟩ := hsizes size List.mem_cons_self
    have hrest := fun later hmem => hsizes later (List.mem_cons_of_mem size hmem)
    have hrep : (req.sent lcid size).Reported := sent_reported hreq
    by_cases hs : 0 < req.rlcStatusPduSize
    · have hcount : req.wholePdus = (req.sent lcid size).wholePdus + 1 := by
        rw [sent_status ⟨hs, hst⟩]
        simp only [wholePdus]
        split_ifs <;> omega
      rw [hcount] at hwhole hpayload
      apply ih hrep
      · rw [sent_status ⟨hs, hst⟩]
        intro later hmem
        obtain ⟨h₁, h₂, -, h₄⟩ := hrest later hmem
        exact ⟨h₁, h₂, Nat.zero_le _, h₄⟩
      · simpa using hwhole
      · rw [List.drop_succ_cons] at hpayload
        rw [sent_status ⟨hs, hst⟩] at hpayload ⊢
        exact hpayload
    by_cases hr : 0 < req.rlcRetransmissionQueueSize
    · have hsent : req.sent lcid size = { req with rlcRetransmissionQueueSize := 0 } :=
        sent_retransmission (fun h => hs h.1) ⟨hr, hrt⟩
      have hcount : req.wholePdus = (req.sent lcid size).wholePdus + 1 := by
        rw [hsent]
        simp only [wholePdus]
        split_ifs <;> omega
      rw [hcount] at hwhole hpayload
      apply ih hrep
      · rw [hsent]
        intro later hmem
        obtain ⟨h₁, h₂, h₃, -⟩ := hrest later hmem
        exact ⟨h₁, h₂, h₃, Nat.zero_le _⟩
      · simpa using hwhole
      · rw [List.drop_succ_cons] at hpayload
        rw [hsent] at hpayload ⊢
        exact hpayload
    · have hnos : ¬ (0 < req.rlcStatusPduSize ∧ req.rlcStatusPduSize ≤ size) :=
        fun h => hs h.1
      have hnor : ¬ (0 < req.rlcRetransmissionQueueSize ∧
          req.rlcRetransmissionQueueSize ≤ size) := fun h => hr h.1
      have hsent := sent_transmission lcid hreq hnos hnor
      rw [sub32_of_le (by omega) hover] at hsent
      have hnone : ∀ tx, wholePdus { req with rlcTransmissionQueueSize := tx } = 0 := by
        intro tx
        simp only [wholePdus]
        split_ifs <;> omega
      rw [hnone req.rlcTransmissionQueueSize, List.drop_zero, List.map_cons, List.sum_cons]
        at hpayload
      apply ih hrep
      · rw [hsent]
        exact hrest
      · rw [hsent, hnone]
        exact Nat.zero_le _
      · rw [hsent, hnone, List.drop_zero]
        dsimp only
        omega

end RlcBufferReq

variable {R : Type}

namespace NsPfScheduler
variable {s : NsPfScheduler R} {rnti lcid size : ℕ}

def Reported (s : NsPfScheduler R) : Prop :=
  ∀ flow req, OrderedMap.find s.rlcBufferReq flow = some req → req.Reported

def KeepsQueues (s s' : NsPfScheduler R) (size : ℕ) : Prop :=
  ∀ flow req, OrderedMap.find s.rlcBufferReq flow = some req →
    ∃ req', OrderedMap.find s'.rlcBufferReq flow = some req' ∧ req.Kept req' size

def DrainsQueues (s : NsPfScheduler R) (rnti lcid : ℕ) : Prop :=
  ∀ (req : RlcBufferReq) (sizes : List ℕ), OrderedMap.find s.rlcBufferReq (rnti, lcid) = some req →
    (∀ size ∈ sizes, size < 65536 ∧ RlcBufferReq.overhead lcid ≤ size ∧
      req.rlcStatusPduSize ≤ size ∧ req.rlcRetransmissionQueueSize ≤ size) →
    req.wholePdus ≤ sizes.length →
    req.rlcTransmissionQueueSize ≤
      ((sizes.drop req.wholePdus).map (· - RlcBufferReq.overhead lcid)).sum →
    OrderedMap.find
      (sizes.foldl (fun s size => s.updateDlRlcBufferInfo rnti lcid size) s).rlcBufferReq
      (rnti, lcid) = some ⟨0, 0, 0⟩

theorem find_updateDl (s : NsPfScheduler R) (rnti lcid size : ℕ) (flow : ℕ × ℕ) :
    OrderedMap.find (s.updateDlRlcBufferInfo rnti lcid size).rlcBufferReq flow =
      if (rnti, lcid) = flow then
        (OrderedMap.find s.rlcBufferReq flow).map (·.sent lcid size)
      else OrderedMap.find s.rlcBufferReq flow := by
  exact OrderedMap.find_modify s.rlcBufferReq (rnti, lcid) flow (·.sent lcid size)

theorem updateDl_keeps_iff (hs : s.Reported) (hsize : size < 65536) :
    s.KeepsQueues (s.updateDlRlcBufferInfo rnti lcid size) size ↔
      ∀ req, OrderedMap.find s.rlcBufferReq (rnti, lcid) = some req →
        ¬ req.BelowOverhead lcid size := by
  constructor
  · intro h req hreq
    obtain ⟨req', hreq', hkept⟩ := h (rnti, lcid) req hreq
    rw [find_updateDl, if_pos rfl, hreq] at hreq'
    obtain rfl := Option.some.inj hreq'
    exact (RlcBufferReq.sent_kept_iff (hs _ _ hreq) hsize).mp hkept
  · intro h flow req hreq
    rw [find_updateDl]
    by_cases hflow : (rnti, lcid) = flow
    · subst hflow
      rw [if_pos rfl, hreq]
      exact ⟨_, rfl, (RlcBufferReq.sent_kept_iff (hs _ _ hreq) hsize).mpr (h req hreq)⟩
    · rw [if_neg hflow]
      exact ⟨req, hreq, .refl req size⟩

theorem find_updateDls (sizes : List ℕ) (s : NsPfScheduler R) (rnti lcid : ℕ) :
    OrderedMap.find
        (sizes.foldl (fun s size => s.updateDlRlcBufferInfo rnti lcid size) s).rlcBufferReq
        (rnti, lcid) =
      (OrderedMap.find s.rlcBufferReq (rnti, lcid)).map
        fun req => sizes.foldl (fun req size => req.sent lcid size) req := by
  induction sizes generalizing s with
  | nil => simp
  | cons size sizes ih =>
    rw [List.foldl_cons, ih, find_updateDl, if_pos rfl, Option.map_map]
    rfl

theorem drainsQueues (hs : s.Reported) (rnti lcid : ℕ) : s.DrainsQueues rnti lcid := by
  intro req sizes hreq hsizes hwhole hpayload
  rw [find_updateDls, hreq, Option.map_some,
    RlcBufferReq.sent_drains (hs _ _ hreq) hsizes hwhole hpayload]

end NsPfScheduler

namespace NsPfUplink
variable {s : NsPfUplink R} {rnti size : ℕ}

def Reported (s : NsPfUplink R) : Prop :=
  ∀ rnti bytes, OrderedMap.find s.ceBsrRxed rnti = some bytes → bytes < 4294967296

def KeepsReports (s s' : NsPfUplink R) (size : ℕ) : Prop :=
  ∀ rnti bytes, OrderedMap.find s.ceBsrRxed rnti = some bytes →
    ∃ bytes', OrderedMap.find s'.ceBsrRxed rnti = some bytes' ∧
      bytes' ≤ bytes ∧ bytes ≤ bytes' + size

def DrainsReport (s : NsPfUplink R) (rnti : ℕ) : Prop :=
  ∀ (bytes : ℕ) (sizes : List ℕ), OrderedMap.find s.ceBsrRxed rnti = some bytes →
    (∀ size ∈ sizes, size < 65536 ∧ 2 ≤ size) → bytes ≤ (sizes.map (· - 2)).sum →
    OrderedMap.find
      (sizes.foldl (fun s size => s.updateUlRlcBufferInfo rnti size) s).ceBsrRxed rnti = some 0

theorem find_updateUl (s : NsPfUplink R) (rnti size rnti' : ℕ) :
    OrderedMap.find (s.updateUlRlcBufferInfo rnti size).ceBsrRxed rnti' =
      if rnti = rnti' then (OrderedMap.find s.ceBsrRxed rnti').map (· - sub16 size 2)
      else OrderedMap.find s.ceBsrRxed rnti' := by
  have hsub : (fun bytes => if sub16 size 2 ≤ bytes then bytes - sub16 size 2 else 0) =
      (· - sub16 size 2) := by
    funext bytes
    split_ifs with hle
    · rfl
    · exact (Nat.sub_eq_zero_of_le (by omega)).symm
  simp only [updateUlRlcBufferInfo, hsub]
  exact OrderedMap.find_modify _ _ _ _

theorem updateUl_keeps_iff (hsize : size < 65536) (hs : s.Reported) :
    s.KeepsReports (s.updateUlRlcBufferInfo rnti size) size ↔
      ∀ bytes, OrderedMap.find s.ceBsrRxed rnti = some bytes → 2 ≤ size ∨ bytes ≤ size := by
  constructor
  · intro h bytes hbytes
    by_contra hcond
    push Not at hcond
    obtain ⟨bytes', hbytes', -, hle⟩ := h rnti bytes hbytes
    rw [find_updateUl, if_pos rfl, hbytes, sub16_of_lt (by omega) hcond.1] at hbytes'
    obtain rfl := Option.some.inj hbytes'
    dsimp only at hle
    omega
  · intro h rnti' bytes hbytes
    rw [find_updateUl]
    by_cases hrnti : rnti = rnti'
    · subst hrnti
      rw [if_pos rfl, hbytes]
      refine ⟨_, rfl, Nat.sub_le _ _, ?_⟩
      rcases h bytes hbytes with htwo | hle
      · rw [sub16_of_le hsize htwo]
        dsimp only
        omega
      · exact hle.trans (Nat.le_add_left _ _)
    · rw [if_neg hrnti]
      exact ⟨bytes, hbytes, le_refl _, Nat.le_add_right _ _⟩

theorem drainsReport (s : NsPfUplink R) (rnti : ℕ) : s.DrainsReport rnti := by
  intro bytes sizes hbytes hsizes hpayload
  induction sizes generalizing s bytes with
  | nil =>
    obtain rfl : bytes = 0 := by simpa using hpayload
    exact hbytes
  | cons size sizes ih =>
    obtain ⟨hlt, htwo⟩ := hsizes size List.mem_cons_self
    have hnext : OrderedMap.find (s.updateUlRlcBufferInfo rnti size).ceBsrRxed rnti =
        some (bytes - (size - 2)) := by
      rw [find_updateUl, if_pos rfl, hbytes, sub16_of_le hlt htwo]
      rfl
    apply ih _ (bytes - (size - 2)) hnext
      (fun later hmem => hsizes later (List.mem_cons_of_mem _ hmem))
    rw [List.map_cons, List.sum_cons] at hpayload
    omega

end NsPfUplink

/-- A grant loses no data: no recorded size grows, none shrinks by more than the grant, and grants
that cover the reports leave nothing. -/
def KeepsData (s : NsPfScheduler R) (u : NsPfUplink R) (rnti lcid size : ℕ) : Prop :=
  (s.KeepsQueues (s.updateDlRlcBufferInfo rnti lcid size) size ∧ s.DrainsQueues rnti lcid) ∧
    u.KeepsReports (u.updateUlRlcBufferInfo rnti size) size ∧ u.DrainsReport rnti

theorem updateRlcBufferInfo_keeps_iff (s : NsPfScheduler R) (u : NsPfUplink R)
    (rnti lcid size : ℕ) (hs : s.Reported) (hu : u.Reported) (hsize : size < 65536) :
    KeepsData s u rnti lcid size ↔
      (∀ req, OrderedMap.find s.rlcBufferReq (rnti, lcid) = some req →
        ¬ req.BelowOverhead lcid size) ∧
      ∀ bytes, OrderedMap.find u.ceBsrRxed rnti = some bytes → 2 ≤ size ∨ bytes ≤ size := by
  rw [KeepsData, s.updateDl_keeps_iff hs hsize, u.updateUl_keeps_iff hsize hu]
  constructor
  · rintro ⟨⟨hdl, -⟩, hul, -⟩
    exact ⟨hdl, hul⟩
  · rintro ⟨hdl, hul⟩
    exact ⟨⟨hdl, s.drainsQueues hs rnti lcid⟩, hul, u.drainsReport rnti⟩

def oneQueue : NsPfScheduler ℚ :=
  { NsPfScheduler.start true 6 with rlcBufferReq := [((1, 3), ⟨100, 0, 0⟩)] }

def oneReport : NsPfUplink ℚ := { NsPfUplink.start true 6 with ceBsrRxed := [(1, 100)] }

theorem oneQueue_reported : oneQueue.Reported := by
  intro flow req hreq
  have hmem := OrderedMap.mem_of_find hreq
  rw [oneQueue, List.mem_singleton] at hmem
  obtain rfl := (Prod.mk.inj hmem).2
  exact ⟨by decide, by decide, by decide⟩

theorem oneReport_reported : oneReport.Reported := by
  intro rnti bytes hbytes
  have hmem := OrderedMap.mem_of_find hbytes
  rw [oneReport, List.mem_singleton] at hmem
  obtain rfl := (Prod.mk.inj hmem).2
  decide

/-- A grant of 12 bytes is fine both ways. -/
theorem updateRlcBufferInfo_keeps_twelve : KeepsData oneQueue oneReport 1 3 12 := by
  apply (updateRlcBufferInfo_keeps_iff oneQueue oneReport 1 3 12 oneQueue_reported
    oneReport_reported (by decide)).mpr
  refine ⟨fun req _ hbelow => ?_, fun _ _ => .inl (by decide)⟩
  have hover : 12 < RlcBufferReq.overhead 3 := hbelow.1
  exact absurd hover (by decide)

/-- A grant of one byte empties a queue of 100. -/
theorem updateRlcBufferInfo_oneByte : ¬ KeepsData oneQueue oneReport 1 3 1 := by
  intro h
  obtain ⟨req', hreq', hkept⟩ := h.1.1 (1, 3) ⟨100, 0, 0⟩ (by decide)
  have hempty : OrderedMap.find (oneQueue.updateDlRlcBufferInfo 1 3 1).rlcBufferReq (1, 3) =
      some ⟨0, 0, 0⟩ := by decide
  rw [hempty] at hreq'
  obtain rfl := Option.some.inj hreq'
  exact absurd hkept.total (by decide)
end NetGymSim.Gma

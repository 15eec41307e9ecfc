import NetGymSim.Gma.Reordering
import NetGymSim.Lib.SerialNumber

/-!
# The accounts of the receive report

`Receive` keeps for each link the parameters of the running report and the numbers of the last
packet. A report takes the parameters away and leaves the numbers, which start just before the
first number of a link. `LsnDiff` alone cannot tell a gap of 128 packets and more from a late
packet; the global numbers decide between the two.
-/

namespace NetGymSim.Gma.Report
open NetGymSim.Lib

structure MeasureParam where
  rcvBytes : ℕ := 0
  minOwd : ℕ := uint32Max
  maxOwd : ℕ := 0
  owdSum : ℕ := 0
  count : ℕ := 0
  numOfHighDelayPkt : ℕ := 0
  numOfInOrderPacketsForReport : ℕ := 0
  numOfMissingPacketsForReport : ℕ := 0
  numOfAbnormalPacketsForReport : ℕ := 0
  deriving DecidableEq, Repr

structure MeasureSn where
  lastLsn : ℕ := maxGmaLsn
  lastGsn : ℕ := maxGmaSn
  deriving DecidableEq, Repr

/-- A data packet with its header, size and one-way delay. -/
structure RcvPacket where
  gmaHeader : GmaHeader
  size : ℕ
  owd : ℕ
  deriving DecidableEq, Repr

structure LinkReport where
  measureParam : MeasureParam := {}
  measureSn : MeasureSn := {}
  deriving DecidableEq, Repr

namespace MeasureParam

def addDelay (acceptableDelay : ℕ) (p : RcvPacket) (m : MeasureParam) : MeasureParam :=
  { m with
    rcvBytes := m.rcvBytes + p.size
    maxOwd := max m.maxOwd p.owd
    minOwd := min m.minOwd p.owd
    numOfHighDelayPkt := m.numOfHighDelayPkt + if p.owd > acceptableDelay then 1 else 0
    owdSum := m.owdSum + p.owd
    count := m.count + 1 }

def addInOrder (missing : ℤ) (m : MeasureParam) : MeasureParam :=
  { m with
    numOfMissingPacketsForReport := (m.numOfMissingPacketsForReport + missing).toNat
    numOfInOrderPacketsForReport := m.numOfInOrderPacketsForReport + 1 }

def addAbnormal (m : MeasureParam) : MeasureParam :=
  { m with numOfAbnormalPacketsForReport := m.numOfAbnormalPacketsForReport + 1 }

end MeasureParam

def missingBefore (sn : MeasureSn) (gmaHeader : GmaHeader) : Option ℤ :=
  let diff := lsnDiff gmaHeader.localSequenceNumber sn.lastLsn
  if diff = 1 then some 0
  else if diff > 1 then some (diff - 1)
  else if snDiff gmaHeader.sequenceNumber sn.lastGsn > 0 then some (256 + diff - 1)
  else none

def LinkReport.receive (acceptableDelay : ℕ) (r : LinkReport) (p : RcvPacket) : LinkReport :=
  let m := r.measureParam.addDelay acceptableDelay p
  match missingBefore r.measureSn p.gmaHeader with
  | some missing =>
      { measureParam := m.addInOrder missing
        measureSn := ⟨p.gmaHeader.localSequenceNumber, p.gmaHeader.sequenceNumber⟩ }
  | none => { r with measureParam := m.addAbnormal }

/-- The two maps of the receiver; a link without an entry has none yet. -/
structure RxReport where
  acceptableDelay : ℕ := 1000000
  receivedBytes : ℕ := 0
  measureParamPerCidMap : ℕ → Option MeasureParam := fun _ => none
  measureSnPerCidMap : ℕ → Option MeasureSn := fun _ => none

namespace RxReport
variable (s : RxReport)

def link (cid : ℕ) : LinkReport :=
  ⟨(s.measureParamPerCidMap cid).getD {}, (s.measureSnPerCidMap cid).getD {}⟩

def receive (p : RcvPacket) : RxReport :=
  let cid := p.gmaHeader.connectionId
  let r := (s.link cid).receive s.acceptableDelay p
  { s with
    receivedBytes := s.receivedBytes + p.size
    measureParamPerCidMap := Function.update s.measureParamPerCidMap cid (some r.measureParam)
    measureSnPerCidMap := Function.update s.measureSnPerCidMap cid (some r.measureSn) }

def clear : RxReport := { s with receivedBytes := 0, measureParamPerCidMap := fun _ => none }

theorem link_receive (p : RcvPacket) (cid : ℕ) :
    (s.receive p).link cid =
      if cid = p.gmaHeader.connectionId then (s.link cid).receive s.acceptableDelay p
      else s.link cid := by
  unfold receive link
  split_ifs with hcid
  · simp [hcid]
  · simp [hcid]

theorem link_foldl (packets : List RcvPacket) (cid : ℕ) :
    (packets.foldl receive s).link cid =
      (packets.filter fun p => p.gmaHeader.connectionId = cid).foldl
        (LinkReport.receive s.acceptableDelay) (s.link cid) := by
  induction packets generalizing s with
  | nil => rfl
  | cons p packets ih =>
    have hdelay : (s.receive p).acceptableDelay = s.acceptableDelay := rfl
    rw [List.foldl_cons, ih, link_receive, hdelay, List.filter_cons]
    by_cases hcid : cid = p.gmaHeader.connectionId
    · simp [hcid]
    · simp [hcid, Ne.symm hcid]

end RxReport

/-- A packet of a link that the sender numbered `number` on this link and `sn` over all links. -/
structure Arrival where
  cid : ℕ
  number : ℤ
  sn : ℤ
  size : ℕ := 1000
  owd : ℕ := 0
  deriving DecidableEq

namespace Arrival

def packet (a : Arrival) : RcvPacket :=
  ⟨⟨residue 8388608 a.sn, residue 128 a.number, a.cid⟩, a.size, a.owd⟩

/-- In order after the packet `number` with the global number `sn`, with at most 255 packets lost
between two of them. The global numbers matter only across a gap of half the LSNs. -/
def InOrder : ℤ → ℤ → List Arrival → Prop
  | _, _, [] => True
  | number, sn, a :: rest =>
      (number < a.number ∧ a.number ≤ number + 256) ∧
        (number + 128 ≤ a.number → sn < a.sn ∧ a.sn < sn + 8388608) ∧
        InOrder a.number a.sn rest

def lastNumber (number : ℤ) (arrivals : List Arrival) : ℤ :=
  (arrivals.getLast?.map Arrival.number).getD number

theorem lastNumber_cons (number : ℤ) (a : Arrival) (rest : List Arrival) :
    lastNumber number (a :: rest) = lastNumber a.number rest := by
  cases rest with
  | nil => rfl
  | cons b rest => simp [lastNumber, List.getLast?_cons]

theorem InOrder.bounds {number sn : ℤ} {arrivals : List Arrival} (h : InOrder number sn arrivals) :
    number ≤ lastNumber number arrivals ∧ (arrivals.map Arrival.number).Nodup ∧
      ∀ p ∈ arrivals.map Arrival.number, number < p ∧ p ≤ lastNumber number arrivals := by
  induction arrivals generalizing number sn with
  | nil => exact ⟨le_rfl, List.nodup_nil, fun p hp => absurd hp List.not_mem_nil⟩
  | cons a rest ih =>
    obtain ⟨hlast, hnodup, hmem⟩ := ih h.2.2
    have hstep : number < a.number := h.1.1
    rw [lastNumber_cons, List.map_cons, List.nodup_cons]
    refine ⟨hstep.le.trans hlast, ⟨fun ha => absurd (hmem _ ha).1 (lt_irrefl _), hnodup⟩, ?_⟩
    intro p hp
    rcases List.mem_cons.mp hp with rfl | hp
    · exact ⟨hstep, hlast⟩
    · exact ⟨hstep.trans (hmem p hp).1, (hmem p hp).2⟩

end Arrival

namespace LinkReport
variable {r : LinkReport} {number sn : ℤ} {a : Arrival}

structure Follows (number sn : ℤ) (r : LinkReport) : Prop where
  lastLsn : r.measureSn.lastLsn = residue 128 number
  lastGsn : r.measureSn.lastGsn = residue 8388608 sn

theorem follows_fresh : Follows (-1) (-1) {} := ⟨by decide, by decide⟩

theorem missingBefore_eq (h : Follows number sn r)
    (hnumber : number < a.number ∧ a.number ≤ number + 256)
    (hsn : number + 128 ≤ a.number → sn < a.sn ∧ a.sn < sn + 8388608) :
    missingBefore r.measureSn a.packet.gmaHeader = some (a.number - number - 1) := by
  have hfar (hgap : number + 128 ≤ a.number) :
      0 < snDiff a.packet.gmaHeader.sequenceNumber r.measureSn.lastGsn := by
    obtain ⟨hlo, hhi⟩ := hsn hgap
    have hdiff : snDiff a.packet.gmaHeader.sequenceNumber r.measureSn.lastGsn = a.sn - sn := by
      rw [h.lastGsn]
      exact wrapDiff_residue (by decide) (by omega) (by omega)
    omega
  have hlsn : lsnDiff a.packet.gmaHeader.localSequenceNumber r.measureSn.lastLsn =
      wrapDiff 128 (residue 128 a.number) (residue 128 number) := by
    rw [h.lastLsn]
    rfl
  unfold missingBefore
  simp only [hlsn]
  rcases lt_trichotomy (a.number - number) 128 with hgap | hgap | hgap
  · rw [wrapDiff_residue (by decide) (by omega) hgap]
    by_cases hone : a.number - number = 1
    · rw [if_pos hone, hone]
      rfl
    · rw [if_neg hone, if_pos (by omega)]
  · have hpos := hfar (by omega)
    rcases wrapDiff_residue_half (by decide) hgap with hdiff | hdiff
    · simp [hdiff, hgap]
    · simp [hdiff, hgap, hpos]
  · have hpos := hfar (by omega)
    rw [wrapDiff_residue_far (by decide) hgap (by omega), if_neg (by omega), if_neg (by omega),
      if_pos hpos]
    exact congrArg some (by omega)

theorem Follows.receive (h : Follows number sn r) (acceptableDelay : ℕ)
    (hnumber : number < a.number ∧ a.number ≤ number + 256)
    (hsn : number + 128 ≤ a.number → sn < a.sn ∧ a.sn < sn + 8388608) :
    let r' := r.receive acceptableDelay a.packet
    Follows a.number a.sn r' ∧
      r'.measureParam.numOfInOrderPacketsForReport =
        r.measureParam.numOfInOrderPacketsForReport + 1 ∧
      (r'.measureParam.numOfMissingPacketsForReport : ℤ) =
        r.measureParam.numOfMissingPacketsForReport + (a.number - number - 1) ∧
      r'.measureParam.numOfAbnormalPacketsForReport =
        r.measureParam.numOfAbnormalPacketsForReport := by
  intro r'
  have hr' : r' = { measureParam := (r.measureParam.addDelay acceptableDelay a.packet).addInOrder
                      (a.number - number - 1)
                    measureSn := ⟨residue 128 a.number, residue 8388608 a.sn⟩ } := by
    show r.receive acceptableDelay a.packet = _
    rw [LinkReport.receive, missingBefore_eq h hnumber hsn]
    rfl
  rw [hr']
  refine ⟨⟨rfl, rfl⟩, rfl, ?_, rfl⟩
  exact Int.toNat_of_nonneg (by omega)

theorem Follows.foldl (h : Follows number sn r) (acceptableDelay : ℕ) {arrivals : List Arrival}
    (horder : Arrival.InOrder number sn arrivals) :
    let r' := (arrivals.map Arrival.packet).foldl (LinkReport.receive acceptableDelay) r
    r'.measureParam.numOfInOrderPacketsForReport =
        r.measureParam.numOfInOrderPacketsForReport + arrivals.length ∧
      (r'.measureParam.numOfMissingPacketsForReport : ℤ) =
        r.measureParam.numOfMissingPacketsForReport +
          (Arrival.lastNumber number arrivals - number - arrivals.length) ∧
      r'.measureParam.numOfAbnormalPacketsForReport =
        r.measureParam.numOfAbnormalPacketsForReport := by
  induction arrivals generalizing r number sn with
  | nil => exact ⟨rfl, by simp [Arrival.lastNumber], rfl⟩
  | cons a rest ih =>
    obtain ⟨hfollows, hinOrder, hmissing, habnormal⟩ :=
      h.receive acceptableDelay horder.1 horder.2.1
    obtain ⟨hinOrder', hmissing', habnormal'⟩ := ih hfollows horder.2.2
    simp only [List.map_cons, List.foldl_cons, Arrival.lastNumber_cons, List.length_cons]
    refine ⟨?_, ?_, habnormal'.trans habnormal⟩
    · rw [hinOrder', hinOrder]
      omega
    · rw [hmissing', hmissing]
      push_cast
      omega

theorem Follows.accounts (h : Follows number sn r) (acceptableDelay : ℕ)
    {arrivals : List Arrival} (horder : Arrival.InOrder number sn arrivals) :
    let r' := (arrivals.map Arrival.packet).foldl (LinkReport.receive acceptableDelay) r
    r'.measureParam.numOfMissingPacketsForReport = r.measureParam.numOfMissingPacketsForReport +
        lost (number + 1) (Arrival.lastNumber number arrivals) (arrivals.map Arrival.number) ∧
      r'.measureParam.numOfInOrderPacketsForReport =
        r.measureParam.numOfInOrderPacketsForReport + arrivals.length := by
  intro r'
  obtain ⟨hinOrder, hmissing, -⟩ := h.foldl acceptableDelay horder
  obtain ⟨hlast, hnodup, hmem⟩ := horder.bounds
  have hlost : lost (number + 1) (Arrival.lastNumber number arrivals)
      (arrivals.map Arrival.number) + (arrivals.map Arrival.number).length =
        (Arrival.lastNumber number arrivals + 1 - (number + 1)).toNat := by
    apply lost_add_length hnodup
    intro p hp
    exact ⟨Int.add_one_le_of_lt (hmem p hp).1, (hmem p hp).2⟩
  rw [List.length_map] at hlost
  refine ⟨?_, hinOrder⟩
  show ((arrivals.map Arrival.packet).foldl (LinkReport.receive acceptableDelay)
    r).measureParam.numOfMissingPacketsForReport = _
  omega

end LinkReport

namespace RxReport

/-- What the report counts for a link that follows a packet, after any number of packets of this
link in order, among packets of other links. -/
theorem receive_accounts (s : RxReport) (cid : ℕ) (number sn : ℤ) (arrivals : List Arrival)
    (hfollows : (s.link cid).Follows number sn)
    (horder : Arrival.InOrder number sn (arrivals.filter fun a => a.cid = cid)) :
    let ofLink := arrivals.filter fun a => a.cid = cid
    let before := (s.link cid).measureParam
    let after := (((arrivals.map Arrival.packet).foldl receive s).link cid).measureParam
    after.numOfMissingPacketsForReport = before.numOfMissingPacketsForReport +
        lost (number + 1) (Arrival.lastNumber number ofLink) (ofLink.map Arrival.number) ∧
      after.numOfInOrderPacketsForReport =
        before.numOfInOrderPacketsForReport + ofLink.length := by
  intro ofLink before after
  have hafter : after = ((ofLink.map Arrival.packet).foldl
      (LinkReport.receive s.acceptableDelay) (s.link cid)).measureParam := by
    show (((arrivals.map Arrival.packet).foldl receive s).link cid).measureParam = _
    rw [link_foldl, List.filter_map]
    rfl
  rw [hafter]
  exact hfollows.accounts s.acceptableDelay horder

/-- After the first packet of a link, a gap of 200 packets of this link. -/
theorem receive_accounts_gap :
    let arrivals : List Arrival := [⟨0, 0, 0, 1000, 5⟩, ⟨3, 0, 1, 1000, 20⟩, ⟨0, 201, 300, 1000, 5⟩]
    let ofLink := arrivals.filter fun a => a.cid = 0
    let before := (({} : RxReport).link 0).measureParam
    let after := (((arrivals.map Arrival.packet).foldl receive {}).link 0).measureParam
    after.numOfMissingPacketsForReport = before.numOfMissingPacketsForReport +
        lost (-1 + 1) (Arrival.lastNumber (-1) ofLink) (ofLink.map Arrival.number) ∧
      after.numOfInOrderPacketsForReport =
        before.numOfInOrderPacketsForReport + ofLink.length :=
  receive_accounts {} 0 (-1) (-1)
    [⟨0, 0, 0, 1000, 5⟩, ⟨3, 0, 1, 1000, 20⟩, ⟨0, 201, 300, 1000, 5⟩] LinkReport.follows_fresh
    ⟨by decide, by decide, by decide, by decide, trivial⟩

/-- The packets before the first one that arrives count as missing, although none is lost from
there on. -/
theorem receive_first_missing :
    let s := ({} : RxReport).receive (Arrival.packet ⟨0, 5, 5, 1000, 20⟩)
    (s.link 0).measureParam.numOfMissingPacketsForReport = 5 ∧ lost 5 5 [5] = 0 := by
  decide

end RxReport
end NetGymSim.Gma.Report

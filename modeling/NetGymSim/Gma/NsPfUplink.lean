import NetGymSim.Gma.NsPfScheduler

/-!
# Uplink trigger of the network-slicing PF scheduler

`DoSchedUlTriggerReq`: retransmissions take the RBs they had, when these are free, and the users
with bytes to send then get a window of RBs each, in turn from the one that is next. Both loops are
given as many turns as they can take; that these suffice is proved. The statistics of the users and
the fields of a DCI that are always the same have no part in it.
-/

namespace NetGymSim.Gma
open NetGymSim.Lib

/-- `rbStart`, `rbLen` and `mcs` are `uint8_t`. -/
structure UlDci where
  rnti : ℕ
  rbStart : ℕ
  rbLen : ℕ
  tbSize : ℕ
  mcs : ℕ
  ndi : ℕ
deriving DecidableEq

inductive ReceptionStatus
  | ok
  | notOk
  | notValid
deriving DecidableEq

structure UlInfo where
  rnti : ℕ
  receptionStatus : ReceptionStatus

structure UlFfr where
  availableUlRbg : List Bool
  minContinuousUlBandwidth : ℕ
  isUlRbgAvailableForUe : ℕ → ℕ → Bool

/-- The AMC tables and the arithmetic on SINRs: whether one is `NO_SINR`, the average of those that
were measured, the comparison, the CQI. -/
structure UlRadio (R : Type) extends UlFfr where
  isNoSinr : R → Bool
  averageSinr : List R → R
  lt : R → R → Bool
  cqi : R → ℕ
  getMcsFromCqi : ℕ → ℕ
  getUlTbSizeFromMcs : ℕ → ℕ → ℕ

structure NsPfUplink (R : Type) where
  harqOn : Bool
  ulBandwidth : ℕ
  rachAllocationMap : List ℕ
  ceBsrRxed : List (ℕ × ℕ)
  nextRntiUl : ℕ
  ueCqi : ℕ → Option (List R)
  ueCqiTimers : ℕ → Option ℕ
  ulHarqCurrentProcessId : ℕ → Option ℕ
  ulHarqProcessesStatus : ℕ → Option (List ℕ)
  ulHarqProcessesDciBuffer : ℕ → Option (List UlDci)

namespace NsPfUplink
variable {R : Type}

def start (harqOn : Bool) (ulBandwidth : ℕ) : NsPfUplink R where
  harqOn := harqOn
  ulBandwidth := ulBandwidth
  rachAllocationMap := List.replicate ulBandwidth 0
  ceBsrRxed := []
  nextRntiUl := 0
  ueCqi _ := none
  ueCqiTimers _ := none
  ulHarqCurrentProcessId _ := none
  ulHarqProcessesStatus _ := none
  ulHarqProcessesDciBuffer _ := none

def refreshUlCqiMaps (s : NsPfUplink R) : NsPfUplink R :=
  { s with
    ueCqi := fun rnti => if s.ueCqiTimers rnti = some 0 then none else s.ueCqi rnti
    ueCqiTimers := fun rnti =>
      match s.ueCqiTimers rnti with
      | some (timer + 1) => some timer
      | _ => none }

/-- The size is a `uint16_t`, and so is what the overhead leaves of it. -/
def updateUlRlcBufferInfo (s : NsPfUplink R) (rnti size : ℕ) : NsPfUplink R :=
  let size := sub16 size 2
  { s with ceBsrRxed := OrderedMap.modify s.ceBsrRxed rnti fun bytes =>
      if size ≤ bytes then bytes - size else 0 }

end NsPfUplink

def UlDci.rbs (dci : UlDci) : List ℕ := List.range' dci.rbStart dci.rbLen

structure UlPass (R : Type) where
  sched : NsPfUplink R
  rbMap : List Bool
  rbgAllocationMap : List ℕ
  rntiAllocated : List ℕ
  dciList : List UlDci

variable {R : Type}

def UlPass.claim (p : UlPass R) (rnti : ℕ) (rbs : List ℕ) : Except Fault (UlPass R) :=
  rbs.foldlM (fun p j => do
    let rbMap ← vecSet p.rbMap j true
    let rbgAllocationMap ← vecSet p.rbgAllocationMap j rnti
    pure { p with rbMap := rbMap, rbgAllocationMap := rbgAllocationMap }) p

def retxFree (rbMap : List Bool) (rbs : List ℕ) : Except Fault Bool :=
  rbs.foldlM (fun free j => do
    let taken ← vecAt rbMap j
    pure (free && !taken)) true

/-- The process of the feedback, `HARQ_PERIOD` TTIs ago. -/
def ulHarqId (processId : ℕ) : ℕ := (processId + 256 - 7) % 256 % 8

def ulHarqTurn (p : UlPass R) (info : UlInfo) : Except Fault (UlPass R) :=
  if info.receptionStatus = .notOk then
    -- a user without a process is logged and then dereferenced
    match p.sched.ulHarqCurrentProcessId info.rnti with
    | none => .error .outOfRange
    | some processId =>
        let harqId := ulHarqId processId
        match p.sched.ulHarqProcessesDciBuffer info.rnti with
        | none => pure p
        | some dcis => do
            let dci ← vecAt dcis harqId
            match p.sched.ulHarqProcessesStatus info.rnti with
            | none => .error .outOfRange
            | some status => do
                let retx ← vecAt status harqId
                if 3 ≤ retx then pure p
                else do
                  let free ← retxFree p.rbMap dci.rbs
                  if free then do
                    let p ← p.claim dci.rnti dci.rbs
                    let status ← vecSet status processId (retx + 1)
                    let dci := { dci with ndi := 0 }
                    let dcis ← vecSet dcis processId dci
                    pure { p with
                      sched := { p.sched with
                        ulHarqProcessesStatus := Function.update p.sched.ulHarqProcessesStatus
                          info.rnti (some (status.set harqId 0))
                        ulHarqProcessesDciBuffer := Function.update
                          p.sched.ulHarqProcessesDciBuffer info.rnti (some dcis) }
                      rntiAllocated := p.rntiAllocated.insert dci.rnti
                      dciList := p.dciList ++ [dci] }
                  else pure p
  else pure p

def removeRach (ulBandwidth : ℕ) (rbgAllocationMap : List ℕ) (rbMap : List Bool) :
    Except Fault (List Bool) :=
  (List.range ulBandwidth).foldlM (fun rbMap i => do
    let rnti ← vecAt rbgAllocationMap i
    if rnti ≠ 0 then vecSet rbMap i true else pure rbMap) rbMap

/-- `EstimateUlSinr` for a user with SINRs; the estimate is stored. -/
def estimateUlSinr (radio : UlRadio R) (ulBandwidth : ℕ) (sinrs : List R) (rb : ℕ) :
    Except Fault (R × List R) := do
  let measured ← (List.range ulBandwidth).mapM fun i => vecAt sinrs i
  let estimated := radio.averageSinr (measured.filter fun sinr => !radio.isNoSinr sinr)
  let sinrs ← vecSet sinrs rb estimated
  pure (estimated, sinrs)

def sinrAt (radio : UlRadio R) (ulBandwidth : ℕ) (sinrs : List R) (rb : ℕ) :
    Except Fault (R × List R) := do
  let sinr ← vecAt sinrs rb
  if radio.isNoSinr sinr then estimateUlSinr radio ulBandwidth sinrs rb else pure (sinr, sinrs)

def minSinr (radio : UlRadio R) (ulBandwidth : ℕ) (sinrs : List R) (dci : UlDci) :
    Except Fault (R × List R) := do
  let first ← sinrAt radio ulBandwidth sinrs dci.rbStart
  dci.rbs.foldlM (fun (least, sinrs) i => do
    let (sinr, sinrs) ← sinrAt radio ulBandwidth sinrs i
    pure (if radio.lt sinr least then sinr else least, sinrs)) first

def limitRbPerFlow (ulBandwidth rbAllocated rbPerFlow : ℕ) : ℕ :=
  if ulBandwidth + 1 < rbAllocated + rbPerFlow then
    let rest := sub16 ulBandwidth rbAllocated
    -- at least 3 RBs per flow to ensure TxOpportunity >= 7 bytes
    if rest < 3 then 0 else rest
  else rbPerFlow

def windowFree (rbMap : List Bool) (isAvailable : ℕ → Bool) : List ℕ → Except Fault Bool
  | [] => pure true
  | j :: rest => do
      let taken ← vecAt rbMap j
      if taken then pure false
      else if !isAvailable j then pure false
      else windowFree rbMap isAvailable rest

/-- The search for a free window from `rbAllocated` on: where it is, and `rbPerFlow` after it. -/
def findWindow (ulBandwidth : ℕ) (free : List ℕ → Except Fault Bool) :
    ℕ → ℕ → ℕ → Except Fault (Option ℕ × ℕ × ℕ)
  | 0, _, _ => .error .endless
  | fuel + 1, rbAllocated, rbPerFlow =>
      if rbAllocated + rbPerFlow ≤ ulBandwidth ∧ rbPerFlow ≠ 0 then do
        let found ← free (List.range' rbAllocated rbPerFlow)
        if found then pure (some rbAllocated, rbAllocated, rbPerFlow)
        else
          findWindow ulBandwidth free fuel (rbAllocated + 1)
            (limitRbPerFlow ulBandwidth (rbAllocated + 1) rbPerFlow)
      else pure (none, rbAllocated, rbPerFlow)

/-- The variables of the loop over the users; `it` is a position in `ceBsrRxed`. -/
structure UlLoop (R : Type) where
  pass : UlPass R
  it : ℕ
  rbAllocated : ℕ
  rbPerFlow : ℕ

def UlLoop.advance (l : UlLoop R) : UlLoop R :=
  { l with it := if l.it + 1 = l.pass.sched.ceBsrRxed.length then 0 else l.it + 1 }

def NsPfUplink.storeUlDci (s : NsPfUplink R) (dci : UlDci) : Except Fault (NsPfUplink R) :=
  if s.harqOn then do
    let harqId ← orFatal (s.ulHarqCurrentProcessId dci.rnti)
      "No info find in HARQ buffer for UE " dci.rnti
    let dcis ← orFatal (s.ulHarqProcessesDciBuffer dci.rnti)
      "Unable to find RNTI entry in UL DCI HARQ buffer for RNTI " dci.rnti
    let dcis ← vecSet dcis harqId dci
    match s.ulHarqProcessesStatus dci.rnti with
    | none => .error .outOfRange
    | some status => do
        let status ← vecSet status harqId 0
        pure { s with
          ulHarqProcessesDciBuffer :=
            Function.update s.ulHarqProcessesDciBuffer dci.rnti (some dcis)
          ulHarqProcessesStatus :=
            Function.update s.ulHarqProcessesStatus dci.rnti (some status) }
  else pure s

def chooseMcs (radio : UlRadio R) (s : NsPfUplink R) (dci : UlDci) :
    Except Fault (Option ℕ × NsPfUplink R) :=
  match s.ueCqi dci.rnti with
  | none => pure (some 0, s)
  | some [] => .error (.fatalError "CQI of RNTI = " dci.rnti)
  | some sinrs => do
      let (sinr, sinrs) ← minSinr radio s.ulBandwidth sinrs dci
      let cqi := radio.cqi sinr
      pure (if cqi = 0 then none else some (radio.getMcsFromCqi cqi % 256),
        { s with ueCqi := Function.update s.ueCqi dci.rnti (some sinrs) })

def grantWindow (radio : UlRadio R) (l : UlLoop R) (rnti rbLen start rbPerFlow : ℕ) :
    Except Fault (UlLoop R × Bool) := do
  let p ← l.pass.claim rnti (List.range' start rbPerFlow)
  let dci : UlDci := ⟨rnti, start % 256, rbLen % 256, 65535, 0, 1⟩
  let (mcs, s) ← chooseMcs radio p.sched dci
  let l : UlLoop R :=
    { l with pass := { p with sched := s }, rbAllocated := start + rbPerFlow
             rbPerFlow := rbPerFlow }
  match mcs with
  | none => do
      -- the RBs stay taken in `rbMap`
      let rbgAllocationMap ← dci.rbs.foldlM (fun map i => vecSet map i 0) p.rbgAllocationMap
      pure ({ l with pass := { l.pass with rbgAllocationMap := rbgAllocationMap } }.advance, false)
  | some mcs => do
      let tbSize := radio.getUlTbSizeFromMcs mcs rbPerFlow / 8 % 65536
      let dci := { dci with mcs := mcs, tbSize := tbSize }
      let s ← (s.updateUlRlcBufferInfo rnti tbSize).storeUlDci dci
      let l := { l with
        pass := { l.pass with sched := s, dciList := l.pass.dciList ++ [dci] } }.advance
      if l.rbAllocated = s.ulBandwidth ∨ rbPerFlow = 0 then do
        let next ← vecAt s.ceBsrRxed l.it
        pure ({ l with pass := { l.pass with sched := { s with nextRntiUl := next.1 } } }, true)
      else pure (l, false)

def ulTurn (radio : UlRadio R) (l : UlLoop R) : Except Fault (UlLoop R × Bool) := do
  let s := l.pass.sched
  let (rnti, bytes) ← vecAt s.ceBsrRxed l.it
  if rnti ∈ l.pass.rntiAllocated ∨ bytes = 0 then pure (l.advance, false)
  else do
    let rbLen := limitRbPerFlow s.ulBandwidth l.rbAllocated l.rbPerFlow
    let free := windowFree l.pass.rbMap fun j => radio.isUlRbgAvailableForUe j rnti
    let (window, rbAllocated, rbPerFlow) ←
      findWindow s.ulBandwidth free (s.ulBandwidth + 1) 0 rbLen
    match window with
    | none => pure ({ l with
        pass := { l.pass with sched := { s with nextRntiUl := rnti } }
        rbAllocated := rbAllocated
        rbPerFlow := rbPerFlow }, true)
    | some start => grantWindow radio l rnti rbLen start rbPerFlow

def ulLoop (radio : UlRadio R) : ℕ → UlLoop R → Except Fault (UlLoop R)
  | 0, _ => .error .endless
  | fuel + 1, l => do
      let (l, left) ← ulTurn radio l
      if left then pure l
      else do
        let (rnti, _) ← vecAt l.pass.sched.ceBsrRxed l.it
        if rnti ≠ l.pass.sched.nextRntiUl ∧ l.rbPerFlow ≠ 0 then ulLoop radio fuel l else pure l

def UlPass.flows (p : UlPass R) : List (ℕ × ℕ) :=
  p.sched.ceBsrRxed.filter fun entry => 0 < entry.2 && entry.1 ∉ p.rntiAllocated

def rbPerFlow (radio : UlRadio R) (p : UlPass R) : ℕ :=
  let rbAllocatedNum := radio.availableUlRbg.count true
  let ffrUlBandwidth := ((p.sched.ulBandwidth - rbAllocatedNum : ℤ) % 256).toNat
  let tempRbPerFlow := ffrUlBandwidth / (p.flows.length + p.rntiAllocated.length)
  max 3 (min radio.minContinuousUlBandwidth tempRbPerFlow)

def firstUser (s : NsPfUplink R) : Except Fault (ℕ × NsPfUplink R) :=
  if s.nextRntiUl ≠ 0 then
    pure (s.ceBsrRxed.findIdx fun entry => entry.1 = s.nextRntiUl, s)
  else do
    let (rnti, _) ← vecAt s.ceBsrRxed 0
    pure (0, { s with nextRntiUl := rnti })

/-- `DoSchedUlTriggerReq`, with the DCIs that are handed to the MAC. -/
def doSchedUlTriggerReq (radio : UlRadio R) (s : NsPfUplink R) (ulInfoList : List UlInfo) :
    Except Fault (NsPfUplink R × List UlDci) := do
  let s := s.refreshUlCqiMaps
  let rbgAllocationMap := s.rachAllocationMap
  let s := { s with rachAllocationMap := List.replicate s.ulBandwidth 0 }
  let rbMap ← removeRach s.ulBandwidth rbgAllocationMap radio.availableUlRbg
  let feedback := if s.harqOn then ulInfoList else []
  let p ← feedback.foldlM ulHarqTurn ⟨s, rbMap, rbgAllocationMap, [], []⟩
  if p.flows = [] then pure (p.sched, p.dciList)
  else do
    let (it, s) ← firstUser p.sched
    let l ← ulLoop radio s.ceBsrRxed.length
      ⟨{ p with sched := s }, it, 0, rbPerFlow radio p⟩
    pure (l.pass.sched, l.pass.dciList)

end NetGymSim.Gma

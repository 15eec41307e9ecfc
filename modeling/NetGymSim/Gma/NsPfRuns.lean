import Mathlib.Data.Rat.Floor
import NetGymSim.Gma.NsPfTrigger
import NetGymSim.Lib.Machine

/-!
# Runs of the network-slicing PF scheduler

The requests that change what a DL trigger works on, and the machine that takes them in
any order with triggers in between. A request that ends in a fatal error or an exception
ends the run. The frequency-reuse algorithm may answer differently in each TTI.
-/

namespace NetGymSim.Gma
open NetGymSim.Lib

structure LcConfig where
  logicalChannelIdentity : ℕ
  qosBearerType : QosBearerType
  eRabMaximulBitrateDl : ℕ
  eRabGuaranteedBitrateDl : ℕ

inductive SliceAttr
  | d
  | p
  | s
deriving DecidableEq

structure SliceAction where
  slice : List ℤ
  value : List ℤ

def add64 (a b : ℕ) : ℕ := (a + b) % 18446744073709551616

def rbgNumInt (dlBandwidth : ℕ) : ℤ :=
  match getRbgSize dlBandwidth with
  | some rbgSize => (dlBandwidth / rbgSize : ℕ)
  | none => -dlBandwidth

def SliceInfo.recount (info : SliceInfo) : SliceInfo :=
  { info with
    maxRbg := add64 (add64 info.dedicatedRbg info.prioritizedRbg) info.sharedRbg
    minRbg := add64 info.dedicatedRbg info.prioritizedRbg }

def SliceInfo.set (info : SliceInfo) (type : SliceAttr) (value : ℤ) : SliceInfo :=
  let count := (value % 18446744073709551616).toNat
  match type with
  | .d => { info with dedicatedRbg := count }
  | .p => { info with prioritizedRbg := count }
  | .s => { info with sharedRbg := count }

/-- The slice in the guaranteed bit rate of a bearer. -/
def decodeSlice (encodedBits : ℕ) : ℕ × SliceInfo :=
  (encodedBits % 256, SliceInfo.recount
    ⟨encodedBits / 256 % 256, encodedBits / 65536 % 256, encodedBits / 16777216 % 256, 0, 0⟩)

def totalScheduledRbg (slices : List (ℕ × SliceInfo)) : ℤ :=
  slices.foldl (fun total entry => int32 (total + entry.2.minRbg)) 0

def SliceAction.apply (action : SliceAction) (type : SliceAttr) (slice : ℕ × SliceInfo) :
    Except Fault (ℕ × SliceInfo) :=
  if action.value = [] then pure slice
  else if action.slice.length ≠ action.value.length then
    .error (.fatalError "the size of slice id and value must be the same!" 0)
  else
    match (action.slice.zip action.value).find? fun entry => entry.1 = (slice.1 : ℤ) with
    | some (_, value) => pure (slice.1, (slice.2.set type value).recount)
    | none => pure (slice.1, slice.2.recount)

def flowLt (a b : ℕ × ℕ) : Prop := a.1 < b.1 ∨ a.1 = b.1 ∧ a.2 < b.2

instance : DecidableRel flowLt := fun a b =>
  inferInstanceAs (Decidable (a.1 < b.1 ∨ a.1 = b.1 ∧ a.2 < b.2))

namespace NsPfScheduler
variable {R : Type}

def start (harqOn : Bool) (dlBandwidth : ℕ) : NsPfScheduler R where
  harqOn := harqOn
  dlBandwidth := dlBandwidth
  flowStatsDl := []
  rlcBufferReq := []
  sliceInfoMap := []
  ueLogicalChannelsConfigList _ := none
  a30CqiRxed _ := none
  a30CqiTimers _ := none
  uesTxMode _ := none
  dlHarqCurrentProcessId _ := none
  dlHarqProcessesStatus _ := none
  dlHarqProcessesTimer := []
  dlHarqProcessesDciBuffer _ := none
  dlHarqProcessesRlcPduListBuffer _ := none
  dlInfoListBuffered := []
  scheduledBytesPerLc _ := none
  sliceBearerTypeMap := []

def emptyDci : DlDci := ⟨65535, 255#32, 255, [], [], [], [], 255, 255⟩

def doCschedUeConfigReq (s : NsPfScheduler R) (rnti transmissionMode : ℕ) : NsPfScheduler R :=
  let txModes := Function.update s.uesTxMode rnti (some transmissionMode)
  match s.uesTxMode rnti with
  | some _ => { s with uesTxMode := txModes }
  | none =>
      -- `insert` keeps an entry that is there
      { s with
        uesTxMode := txModes
        dlHarqCurrentProcessId := Function.update s.dlHarqCurrentProcessId rnti
          (some ((s.dlHarqCurrentProcessId rnti).getD 0))
        dlHarqProcessesStatus := Function.update s.dlHarqProcessesStatus rnti
          (some ((s.dlHarqProcessesStatus rnti).getD (List.replicate 8 0)))
        dlHarqProcessesTimer := OrderedMap.upsert (· < ·) rnti
          (fun old => old.getD (List.replicate 8 0)) s.dlHarqProcessesTimer
        dlHarqProcessesDciBuffer := Function.update s.dlHarqProcessesDciBuffer rnti
          (some ((s.dlHarqProcessesDciBuffer rnti).getD (List.replicate 8 emptyDci)))
        dlHarqProcessesRlcPduListBuffer := Function.update s.dlHarqProcessesRlcPduListBuffer rnti
          (some ((s.dlHarqProcessesRlcPduListBuffer rnti).getD
            (List.replicate 2 (List.replicate 8 [])))) }

def configureFlow (radio : Radio R) (s : NsPfScheduler R) (rnti : ℕ) (channel : LcConfig) :
    NsPfScheduler R :=
  let known : Option (FlowPerf R) → FlowPerf R := fun old =>
    old.getD ⟨0, 0, 0, radio.one, radio.one, noSlice⟩
  if channel.eRabMaximulBitrateDl = 4294967295 then
    let (sliceId, info) := decodeSlice channel.eRabGuaranteedBitrateDl
    { s with
      flowStatsDl := OrderedMap.upsert (· < ·) rnti
        (fun old => { known old with sliceId := sliceId }) s.flowStatsDl
      sliceInfoMap := OrderedMap.upsert (· < ·) sliceId (fun _ => info) s.sliceInfoMap }
  else { s with flowStatsDl := OrderedMap.upsert (· < ·) rnti known s.flowStatsDl }

def configureChannel (s : NsPfScheduler R) (rnti : ℕ) (reconfigureFlag : Bool)
    (channel : LcConfig) : NsPfScheduler R :=
  let flowId := (rnti, channel.logicalChannelIdentity)
  if (s.ueLogicalChannelsConfigList flowId).isSome = reconfigureFlag then
    { s with ueLogicalChannelsConfigList :=
        Function.update s.ueLogicalChannelsConfigList flowId (some channel.qosBearerType) }
  else s

def doCschedLcConfigReq (radio : Radio R) (s : NsPfScheduler R) (rnti : ℕ)
    (reconfigureFlag : Bool) (channels : List LcConfig) : Except Fault (NsPfScheduler R) :=
  let s := channels.foldl (fun s channel => s.configureChannel rnti reconfigureFlag channel) s
  let s := channels.foldl (fun s channel => s.configureFlow radio rnti channel) s
  if rbgNumInt s.dlBandwidth < totalScheduledRbg s.sliceInfoMap then
    .error (.fatalError
      "the total schedule RBGs from config.json file is greater than available RBGs (" 0)
  else pure s

def updateSliceInfo (s : NsPfScheduler R) (action : SliceAction) (type : SliceAttr) :
    Except Fault (NsPfScheduler R) := do
  let slices ← s.sliceInfoMap.mapM (action.apply type)
  let total := if action.value = [] then 0 else totalScheduledRbg slices
  if rbgNumInt s.dlBandwidth < total then
    .error (.fatalError "the total schedule RBGs (" 0)
  else pure { s with sliceInfoMap := slices }

def doSchedDlRlcBufferReq (s : NsPfScheduler R) (rnti lcid : ℕ) (req : RlcBufferReq) :
    NsPfScheduler R :=
  { s with rlcBufferReq := OrderedMap.upsert flowLt (rnti, lcid) (fun _ => req) s.rlcBufferReq }

def doSchedDlCqiInfoReq (s : NsPfScheduler R) (rnti threshold : ℕ) (sbCqi : List (List ℕ)) :
    NsPfScheduler R :=
  { s with
    a30CqiRxed := Function.update s.a30CqiRxed rnti (some sbCqi)
    a30CqiTimers := Function.update s.a30CqiTimers rnti (some threshold) }

def doCschedLcReleaseReq (s : NsPfScheduler R) (rnti : ℕ) (channels : List ℕ) :
    Except Fault (NsPfScheduler R) :=
  channels.foldlM (fun s lcid =>
    match s.ueLogicalChannelsConfigList (rnti, lcid) with
    | none => .error (.fatalError ("Logical channels cannot be released because it can not be " ++
        "found in the list of active LCs") rnti)
    | some _ => pure { s with
        ueLogicalChannelsConfigList :=
          Function.update s.ueLogicalChannelsConfigList (rnti, lcid) none
        rlcBufferReq := OrderedMap.erase s.rlcBufferReq (rnti, lcid) }) s

/-- Channels from `MAX_LC_LIST` on keep their configuration. -/
def doCschedUeReleaseReq (s : NsPfScheduler R) (rnti : ℕ) : NsPfScheduler R :=
  { s with
    ueLogicalChannelsConfigList := fun flowId =>
      if flowId.1 = rnti ∧ flowId.2 < 10 then none else s.ueLogicalChannelsConfigList flowId
    uesTxMode := Function.update s.uesTxMode rnti none
    dlHarqCurrentProcessId := Function.update s.dlHarqCurrentProcessId rnti none
    dlHarqProcessesStatus := Function.update s.dlHarqProcessesStatus rnti none
    dlHarqProcessesTimer := OrderedMap.erase s.dlHarqProcessesTimer rnti
    dlHarqProcessesDciBuffer := Function.update s.dlHarqProcessesDciBuffer rnti none
    dlHarqProcessesRlcPduListBuffer :=
      Function.update s.dlHarqProcessesRlcPduListBuffer rnti none
    flowStatsDl := OrderedMap.erase s.flowStatsDl rnti
    rlcBufferReq := s.rlcBufferReq.filter fun entry => entry.1.1 ≠ rnti }

end NsPfScheduler

inductive NsPfEvent
  | ueConfig (rnti transmissionMode : ℕ)
  | lcConfig (rnti : ℕ) (reconfigureFlag : Bool) (channels : List LcConfig)
  | lcRelease (rnti : ℕ) (channels : List ℕ)
  | ueRelease (rnti : ℕ)
  | rlcBufferReq (rnti lcid : ℕ) (req : RlcBufferReq)
  | cqiInfo (rnti threshold : ℕ) (sbCqi : List (List ℕ))
  | sliceInfo (action : SliceAction) (type : SliceAttr)
  | trigger (ffr : Ffr) (dlInfoList : List DlInfo)

namespace NsPfScheduler
variable {R : Type}

def step (radio : Radio R) (s : NsPfScheduler R) : NsPfEvent → Except Fault (NsPfScheduler R)
  | .ueConfig rnti transmissionMode => pure (s.doCschedUeConfigReq rnti transmissionMode)
  | .lcConfig rnti reconfigureFlag channels =>
      s.doCschedLcConfigReq radio rnti reconfigureFlag channels
  | .lcRelease rnti channels => s.doCschedLcReleaseReq rnti channels
  | .ueRelease rnti => pure (s.doCschedUeReleaseReq rnti)
  | .rlcBufferReq rnti lcid req => pure (s.doSchedDlRlcBufferReq rnti lcid req)
  | .cqiInfo rnti threshold sbCqi => pure (s.doSchedDlCqiInfoReq rnti threshold sbCqi)
  | .sliceInfo action type => s.updateSliceInfo action type
  | .trigger ffr dlInfoList =>
      (doSchedDlTriggerReq { radio with toFfr := ffr } s dlInfoList).map Prod.fst

/-- The transmission modes are those that `TxMode2LayerNum` knows. -/
def machine (radio : Radio R) : Machine (NsPfScheduler R) NsPfEvent where
  enabled s e := (s.step radio e).isOk = true ∧
    match e with
    | .ueConfig _ transmissionMode => transmissionMode ≤ 6
    | _ => True
  next s e :=
    match s.step radio e with
    | .ok s' => s'
    | .error _ => s

instance (radio : Radio R) (s : NsPfScheduler R) (e : NsPfEvent) :
    Decidable ((machine radio).enabled s e) :=
  match e with
  | .ueConfig rnti transmissionMode => inferInstanceAs (Decidable
      ((s.step radio (.ueConfig rnti transmissionMode)).isOk = true ∧ transmissionMode ≤ 6))
  | .lcConfig rnti reconfigureFlag channels => inferInstanceAs (Decidable
      ((s.step radio (.lcConfig rnti reconfigureFlag channels)).isOk = true ∧ True))
  | .lcRelease rnti channels => inferInstanceAs (Decidable
      ((s.step radio (.lcRelease rnti channels)).isOk = true ∧ True))
  | .ueRelease rnti => inferInstanceAs (Decidable
      ((s.step radio (.ueRelease rnti)).isOk = true ∧ True))
  | .rlcBufferReq rnti lcid req => inferInstanceAs (Decidable
      ((s.step radio (.rlcBufferReq rnti lcid req)).isOk = true ∧ True))
  | .cqiInfo rnti threshold sbCqi => inferInstanceAs (Decidable
      ((s.step radio (.cqiInfo rnti threshold sbCqi)).isOk = true ∧ True))
  | .sliceInfo action type => inferInstanceAs (Decidable
      ((s.step radio (.sliceInfo action type)).isOk = true ∧ True))
  | .trigger ffr dlInfoList => inferInstanceAs (Decidable
      ((s.step radio (.trigger ffr dlInfoList)).isOk = true ∧ True))

end NsPfScheduler

def openFfr (rbgNum : ℕ) : Ffr := ⟨List.replicate rbgNum false, fun _ _ => true, fun _ => 1⟩

def exactRadio (rbgNum : ℕ) : Radio ℚ where
  toFfr := openFfr rbgNum
  getMcsFromCqi cqi := cqi
  getDlTbSizeFromMcs _ nprb := 800 * nprb
  zero := 0
  one := 1
  addRate rate bytes := rate + bytes * 1000
  slicedRcqi rate sliced := rate / sliced
  sharedRcqi rate averaged sliced := rate / max 1 (averaged - sliced)
  gt a b := b < a
  addScheduled bytes rate := bytes + rate / 1000
  toUint32 bytes := ⌊bytes⌋.toNat
  ltBytes bytes n := bytes < n
  average averaged bytes := (1 - 1 / 99) * averaged + 1 / 99 * (bytes * 1000)

end NetGymSim.Gma

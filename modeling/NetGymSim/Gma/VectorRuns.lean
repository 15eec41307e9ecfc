import NetGymSim.Gma.BurstSizes
import NetGymSim.Gma.DelayEmulation
import NetGymSim.Gma.LinkIndexing
import NetGymSim.Gma.VectorReads

/-!
# Per-link vectors of two ends

Two ends register links, decide, and exchange TSUs and TSAs, which the network may lose, repeat
and reorder. Assertions on the size of a vector are compiled out here, so that a read stands for
itself, and the other failures end the program. The list of an end gets its size with the first
decision, a TSU with its construction, and a TSA from the links of the end that answers, so that a
link that is registered in between leaves them too short.
-/

namespace NetGymSim.Gma
open NetGymSim.Lib

structure LinkEnd (δ : Type) extends TsuReceiver δ where
  deviceList : List Cid := []
  linkParamsMap : LinkIds := ⟨[], LinkIds.nil_sorted⟩
  tx : GmaTxControl := {}
  serverRole : Bool := false
  emulateDelay : Cid → ℕ := fun _ => 0
  /-- The vectors of the TSAs. -/
  tsas : List (List ℕ) := []

inductive EndOp (δ : Type)
  | addPhyLink (cid : Cid)
  | down (cause : DownCause) (cid : Cid)
  | up (cause : DownCause) (cid : Cid)
  /-- `feedback` holds the minimum OWDs that the manager adds, if any. -/
  | measured (m : RxMeasurement δ) (inputs : Inputs δ) (feedback : List ℕ)
  | linkDownTsu (cid : Cid)
  | generate (cid : Cid) (reverse : Bool)
  | resend (tsu : MxControlHeader)
  /-- `fresh` says that the number of the TSU is ahead of the ones before. -/
  | recvTsu (tsu : MxControlHeader) (fresh : Bool)
  | recvTsa (owdVector : List ℕ)

namespace LinkEnd
variable {δ : Type}

def registry (s : LinkEnd δ) : LinkRegistry := ⟨s.linkState, s.deviceList, s.linkParamsMap⟩

def links (s : LinkEnd δ) : ℕ := s.linkState.cidList.length

def addPhyLink (s : LinkEnd δ) (cid : Cid) : LinkEnd δ :=
  let r := s.registry.addPhyLink cid
  { s with linkState := r.linkState, deviceList := r.deviceList, linkParamsMap := r.linkParamsMap }

section Sending

def readShares (s : LinkEnd δ) (kVector : List ℕ) : Except RxFault (List ℕ) :=
  (List.range s.linkParamsMap.list.length).mapM (vectorAt kVector)

def sendCtrlMsg (s : LinkEnd δ) (header : MxControlHeader) : Except RxFault (LinkEnd δ) := do
  let _ ← s.readShares header.kVector
  return { s with tsus := s.tsus ++ [header] }

def tsuHeader (s : LinkEnd δ) (d : SplittingDecision) : MxControlHeader :=
  ({ type := .tsu, l := s.rx.splittingBurst
     reverseFlag := if s.rx.algorithm = .qosSteer ∧ d.reverse then 1 else 0 } :
    MxControlHeader).setTsuKandMeasureVectors d.splitIndexList d.minOwdLongTerm d.queueingDelay

/-- The fatal errors of `SetTsuKandMeasureVectors`. -/
def vectorsDiffer (d : SplittingDecision) : Prop :=
  (d.minOwdLongTerm ≠ [] ∧ d.splitIndexList.length ≠ d.minOwdLongTerm.length) ∨
    (d.queueingDelay ≠ [] ∧ d.splitIndexList.length ≠ d.queueingDelay.length)

instance (d : SplittingDecision) : Decidable (vectorsDiffer d) :=
  inferInstanceAs (Decidable (_ ∨ _))

def sendTsu (s : LinkEnd δ) (d : SplittingDecision) : Except RxFault (LinkEnd δ) :=
  if vectorsDiffer d then .error .sizeMismatch else s.sendCtrlMsg (s.tsuHeader d)

def sendIf (s : LinkEnd δ) (d : SplittingDecision) : Except RxFault (LinkEnd δ) :=
  if d.update then s.sendTsu d else .ok s

end Sending

section Deciding
variable (R : SplitArith δ)

def decision (m : RxMeasurement δ) (inputs : Inputs δ) (r : TsuReceiver δ) :
    Except RxFault (TsuReceiver δ × SplittingDecision) :=
  if m.links = 0 then .error .linkIsZero
  else
    match r.rx.algorithm with
    | .qosSteer => r.takeRx (GmaRxControl.qosSteerAlgorithm R r.linkState m inputs r.rx)
    | .gma2 => TsuReceiver.gma2 R m inputs r
    | .delay | .gma => r.takeRx (GmaRxControl.delayAlgorithm R.toDelayArith r.linkState m r.rx)
    | .congDelay => r.takeRx (GmaRxControl.congDelayAlgorithm R.toDelayArith r.linkState m r.rx)
    | .defaultLink | .rlSplit => .ok (r, {})

def addFeedback (r : TsuReceiver δ) (feedback : List ℕ) (d : SplittingDecision) :
    SplittingDecision :=
  if feedback ≠ [] ∧ 1 < r.rx.splittingBurst then
    { d with update := true, minOwdLongTerm := feedback }
  else d

def measured (s : LinkEnd δ) (m : RxMeasurement δ) (inputs : Inputs δ) (feedback : List ℕ) :
    Except RxFault (LinkEnd δ) := do
  let (r, d) ← decision R m inputs s.toTsuReceiver
  ({ s with toTsuReceiver := r } : LinkEnd δ).sendIf (addFeedback r feedback d)

def linkDownTsu (s : LinkEnd δ) (cid : Cid) : Except RxFault (LinkEnd δ) := do
  let (rx, d) ← GmaRxControl.linkDownTsu s.linkState s.rx cid
  ({ s with rx } : LinkEnd δ).sendIf d

def generate (s : LinkEnd δ) (cid : Cid) (reverse : Bool) : Except RxFault (LinkEnd δ) :=
  let (rx, d) := GmaRxControl.generateTrafficSplittingDecision s.linkState s.rx cid reverse
  ({ s with rx } : LinkEnd δ).sendTsu d

end Deciding

section Receiving

def ofTxFault : TxFault → RxFault
  | .outOfRange => .outOfRange
  | _ => .unsupportedBurst

def rcvCtrlMsg (s : LinkEnd δ) (tsu : MxControlHeader) : Except RxFault GmaTxControl :=
  match s.tx.rcvCtrlMsg false s.linkState.cidList tsu with
  | .ok tx => .ok tx
  | .error fault => .error (ofTxFault fault)

def findLinkTurn (kVector : List ℕ) (found : Bool) (p : ℤ × ℕ) : Except RxFault Bool :=
  if 0 ≤ p.1 then do
    let k ← vectorAt kVector p.2
    return found || decide (0 < k)
  else .ok found

def drainTime (kVector : List ℕ) (p : ℤ × ℕ) : Except RxFault ℕ :=
  if p.1 < 0 then do
    let k ← vectorAt kVector p.2
    return if 0 < k then (-p.1).toNat else 0
  else .ok 0

def updateLinkQueueingDelay (s : LinkEnd δ) (queueingDelayVector : List ℕ) :
    Except RxFault (List ℕ) :=
  (List.range s.links).mapM (vectorAt queueingDelayVector)

def drain (s : LinkEnd δ) (kVector : List ℕ) (offsets : List ℤ) (found : Bool) :
    Except RxFault (List ℕ) :=
  if found then do
    let times ← offsets.zipIdx.mapM (drainTime kVector)
    s.updateLinkQueueingDelay times
  else .ok []

def respondTsa (s : LinkEnd δ) (offsets : List ℤ) : LinkEnd δ :=
  { s with tsas := s.tsas ++ [encodeOffsets offsets] }

def acceptTsu (s : LinkEnd δ) (tsu : MxControlHeader) : Except RxFault (LinkEnd δ) := do
  let tx ← s.rcvCtrlMsg tsu
  let owds ← (List.range s.links).mapM (vectorAt tsu.owdVector)
  let r := emulateDelays s.linkState.cidList owds s.emulateDelay
  let found ← r.2.zipIdx.foldlM (findLinkTurn tsu.kVector) false
  let _ ← s.drain tsu.kVector r.2 found
  return ({ s with tx, emulateDelay := r.1 } : LinkEnd δ).respondTsa r.2

def rcvReverseTsu (s : LinkEnd δ) (tsu : MxControlHeader) : Except RxFault (LinkEnd δ) := do
  let _ ← s.readShares tsu.kVector
  let (rx, _) := s.registry.rcvReverseTsu tsu.kVector s.rx
  ({ s with rx } : LinkEnd δ).sendCtrlMsg { tsu with reverseFlag := 0 }

def turnsRound (s : LinkEnd δ) (tsu : MxControlHeader) : Prop :=
  s.rx.algorithm = .qosSteer ∧ s.serverRole ∧ tsu.reverseFlag = 1

instance (s : LinkEnd δ) (tsu : MxControlHeader) : Decidable (s.turnsRound tsu) :=
  inferInstanceAs (Decidable (_ ∧ _ ∧ _))

def recvTsu (s : LinkEnd δ) (tsu : MxControlHeader) (fresh : Bool) : Except RxFault (LinkEnd δ) :=
  if fresh then
    if s.turnsRound tsu then s.rcvReverseTsu tsu else s.acceptTsu tsu
  else .ok (s.respondTsa (s.linkState.cidList.map fun _ => 0))

/-- `MeasureCycleStartByTsa` reads an entry for each device. -/
def recvTsa (s : LinkEnd δ) (owdVector : List ℕ) : Except RxFault (LinkEnd δ) :=
  if owdVector = [] then .ok s
  else do
    let _ ← (List.range s.deviceList.length).mapM (vectorAt owdVector)
    return s

end Receiving

section Runs
variable (R : SplitArith δ)

def step (s : LinkEnd δ) : EndOp δ → Except RxFault (LinkEnd δ)
  | .addPhyLink cid => .ok (s.addPhyLink cid)
  | .down cause cid => .ok { s with linkState := (s.linkState.markDown cause cid).1 }
  | .up cause cid => .ok { s with linkState := (s.linkState.markUp cause cid).1 }
  | .measured m inputs feedback => s.measured R m inputs feedback
  | .linkDownTsu cid => s.linkDownTsu cid
  | .generate cid reverse => s.generate cid reverse
  | .resend tsu => do
      let _ ← s.readShares tsu.kVector
      return s
  | .recvTsu tsu fresh => s.recvTsu tsu fresh
  | .recvTsa owdVector => s.recvTsa owdVector

end Runs
end LinkEnd
end NetGymSim.Gma

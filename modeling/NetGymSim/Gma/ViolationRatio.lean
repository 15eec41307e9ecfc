import NetGymSim.Gma.RatioRounding
import Mathlib.Algebra.Order.Field.Rat

/-!
# The ratios of the delay violation algorithm

The four cases that compute `newRatio` from the packets of an interval, the violations among them
and the bandwidths of the last intervals, once the failed links are known. Doubles are rationals
and a division by zero is a fault. The two histories of a link grow and shrink together and are
one list of pairs; a link without history has the empty list.
-/

namespace NetGymSim.Gma
open NetGymSim.Lib

inductive RatioFault
  | divisionByZero | defaultLinkDown | conditionNotMet | negativeScaler | noBandwidth
  deriving DecidableEq, Repr

/-- The packets of a measured link and the violations among them, `n(i)` and `k(i)`. -/
structure LinkCount where
  cid : Cid
  total : ℕ
  violations : ℕ
  deriving DecidableEq

abbrev BwHistory : Type := Cid → List (ℚ × ℕ)

namespace ViolationRatio

def bwHistSize : ℕ := 10
def congestionScalerMax : ℚ := 1 / 2
def congestionScalerMin : ℚ := 1 / 10
def congestionScaler : ℚ := 1 / 2
def adaptiveCongestionScaler : Bool := true
def enableBwEstimate : Bool := true
def minSplitAdjustmentStep : ℕ := 1

def divide (a b : ℚ) : Except RatioFault ℚ := if b = 0 then .error .divisionByZero else .ok (a / b)

def linkCounts {δ : Type} (m : RxMeasurement δ) : List LinkCount :=
  (m.cidList.zip (m.totalPktNumList.zip m.delayViolationPktNumList)).map fun r =>
    ⟨r.1, r.2.1, r.2.2⟩

section Interval
variable (linkState : LinkState) (links : List LinkCount)

def up (r : LinkCount) : Bool := linkState.isLinkUp r.cid

def upLinks : List LinkCount := links.filter (up linkState)

def sumPkt : ℕ := ((upLinks linkState links).map LinkCount.total).sum

def sumCongested : ℕ := ((upLinks linkState links).map LinkCount.violations).sum

def clearLinks : List LinkCount := (upLinks linkState links).filter fun r => r.violations = 0

def sumPktNoCongestion : ℕ := ((clearLinks linkState links).map LinkCount.total).sum

def isDefault (r : LinkCount) : Bool := r.cid = linkState.defaultLinkCid

end Interval

section History
variable (linkState : LinkState) (durationS : ℚ)

def bandwidth (r : LinkCount) : Except RatioFault ℚ :=
  if up linkState r then divide r.total durationS else .ok 0

def extendHistory (history : BwHistory) (r : LinkCount) : Except RatioFault BwHistory := do
  let bw ← bandwidth linkState durationS r
  return Function.update history r.cid (history r.cid ++ [(bw, r.violations)])

def trimHistory (history : BwHistory) : BwHistory :=
  fun cid => (history cid).drop ((history cid).length - bwHistSize)

def maxBw (history : BwHistory) (cid : Cid) : ℚ := ((history cid).map Prod.fst).max?.getD 0

def maxKi (history : BwHistory) (cid : Cid) : ℕ := ((history cid).map Prod.snd).max?.getD 0

end History

section Cases
variable (linkState : LinkState) (links : List LinkCount)

def noTraffic (r : LinkCount) : Except RatioFault ℚ :=
  if isDefault linkState r then
    if up linkState r then .ok 1 else .error .defaultLinkDown
  else .ok 0

def oneLink (r : LinkCount) : ℚ := if up linkState r ∧ isDefault linkState r then 1 else 0

/-- What the scan for links with data finds. Without a default link that is up `defIndex` stays
zero. -/
structure DataScan where
  nDefN : ℕ := 0
  nDefIndex : ℕ := 0
  defIndex : ℕ := 0
  linkWithData : ℕ := 0
  deriving DecidableEq

def DataScan.turn (v : DataScan) (r : LinkCount × ℕ) : DataScan :=
  if up linkState r.1 then
    let v := if r.1.total > 0 then { v with linkWithData := v.linkWithData + 1 } else v
    if isDefault linkState r.1 then { v with defIndex := r.2 }
    else if r.1.total > 0 then { v with nDefN := r.1.total, nDefIndex := r.2 }
    else v
  else v

def dataScan : DataScan := links.zipIdx.foldl (DataScan.turn linkState) {}

/-- Case 2 with several links in use: part of the packets of another link move to the default
link. -/
def relocated (scan : DataScan) (relocatePktNum : ℕ) (r : LinkCount × ℕ) : Except RatioFault ℚ :=
  if up linkState r.1 then
    if r.1.total < r.1.violations ∨ sumPkt linkState links = 0 then .error .conditionNotMet
    else if r.2 = scan.nDefIndex then
      divide ((scan.nDefN - relocatePktNum : ℕ) : ℚ) (sumPkt linkState links)
    else if r.2 = scan.defIndex then
      divide ((r.1.total + relocatePktNum : ℕ) : ℚ) (sumPkt linkState links)
    else divide r.1.total (sumPkt linkState links)
  else .ok 0

def noCongestion (splittingBurst : ℕ) : Except RatioFault (List ℚ) := do
  let scan := dataScan linkState links
  if scan.linkWithData = 1 then return links.map (oneLink linkState)
  else
    let relocateScaler ← divide minSplitAdjustmentStep splittingBurst
    let relocatePktNum := min scan.nDefN (truncate (relocateScaler * sumPkt linkState links)).toNat
    if relocatePktNum > 0 then links.zipIdx.mapM (relocated linkState links scan relocatePktNum)
    else return []

section Medium
variable (durationS : ℚ) (history : BwHistory)

/-- A link that was never congested, or has less than a packet each second, has no estimate. -/
def allLinkBwAvailable : Bool :=
  (upLinks linkState links).all fun r =>
    decide (history r.cid ≠ [] ∧ maxKi history r.cid ≠ 0 ∧ ¬ maxBw history r.cid < 1)

def sumMaxBwKequalZero : ℚ :=
  ((clearLinks linkState links).map fun r => maxBw history r.cid).sum

def newScaler : Except RatioFault ℚ :=
  if adaptiveCongestionScaler ∧ allLinkBwAvailable linkState links history then do
    let a ← divide (sumMaxBwKequalZero linkState links history * durationS -
      sumPktNoCongestion linkState links) (sumCongested linkState links)
    if a < -(1 / 1000000000) then .error .negativeScaler
    else return min congestionScalerMax (max congestionScalerMin a)
  else .ok congestionScaler

def mediumCongestion (r : LinkCount) : Except RatioFault ℚ := do
  let n : ℚ := sumPkt linkState links
  let k : ℚ := sumCongested linkState links
  if up linkState r then
    if r.total < r.violations ∨ sumPkt linkState links = 0 then .error .conditionNotMet
    else
      let a ← newScaler linkState links durationS history
      if r.violations > 0 then divide (r.total - r.violations * a) n
      else if enableBwEstimate ∧ allLinkBwAvailable linkState links history then
        let sumBw := sumMaxBwKequalZero linkState links history
        if sumBw > 0 then
          divide ((sumPktNoCongestion linkState links + k * a) * maxBw history r.cid) (sumBw * n)
        else .error .noBandwidth
      else
        let part ← divide (k * a) (clearLinks linkState links).length
        divide (r.total + part) n
  else return 0

end Medium

def heavyCongestion (r : LinkCount) : Except RatioFault ℚ :=
  let newScaler : ℚ := 0
  let rest := sumPkt linkState links - sumCongested linkState links * newScaler
  if up linkState r then
    if r.total < r.violations ∨ rest = 0 then .error .conditionNotMet
    else divide (r.total - r.violations * newScaler) rest
  else .ok 0

end Cases

def caseRatio (linkState : LinkState) (links : List LinkCount) (durationS : ℚ)
    (splittingBurst : ℕ) (history : BwHistory) : Except RatioFault (List ℚ) :=
  if sumPkt linkState links = 0 then links.mapM (noTraffic linkState)
  else if sumCongested linkState links = 0 then noCongestion linkState links splittingBurst
  else if 0 < (clearLinks linkState links).length then
    links.mapM (mediumCongestion linkState links durationS history)
  else links.mapM (heavyCongestion linkState links)

/-- The new ratios, none when nothing is to be changed, and the new histories. -/
def newRatio (linkState : LinkState) (links : List LinkCount) (durationS : ℚ)
    (splittingBurst : ℕ) (history : BwHistory) : Except RatioFault (List ℚ × BwHistory) := do
  let extended ← links.foldlM (extendHistory linkState durationS) history
  let history := trimHistory extended
  let ratio ← caseRatio linkState links durationS splittingBurst history
  return (ratio, history)

end ViolationRatio
end NetGymSim.Gma

import NetGymSim.Lib.Word
import Mathlib.Data.Finset.Basic
import Mathlib.Data.Fintype.Card
import Mathlib.Tactic.Common

/-!
# Link state

`LinkState` keeps three records of links that are down, one per cause, and the default
link. A link is up when no record names it. The source's maps only ever hold `true`, so
that a record is the set of its keys.
-/

namespace NetGymSim.Gma

abbrev Cid : Type := Fin 256

instance instLawfulBEqCid : LawfulBEq Cid := inferInstance

def wifiCid : Cid := 0
def uint8Max : Cid := 255

inductive DownCause
  | ctrFailed | lowQuality | bitmapFailed
  deriving DecidableEq, Repr

structure LinkState where
  cidList : List Cid
  defaultLinkCid : Cid := wifiCid
  fixDefaultLink : Bool := false
  preferLargeCidValue : Bool := true
  downMap : DownCause → Finset Cid := fun _ => ∅
  cidToLastTestFailTime : Finset Cid := ∅

namespace LinkState

def isLinkUp (s : LinkState) (cid : Cid) : Bool :=
  decide (cid ∉ s.downMap .ctrFailed ∧ cid ∉ s.downMap .lowQuality ∧
    cid ∉ s.downMap .bitmapFailed)

section DefaultLink

def maxOkCid (s : LinkState) : Cid :=
  s.cidList.foldl (fun best cid => if s.isLinkUp cid ∧ cid > best then cid else best) uint8Max

def minOkCid (s : LinkState) : Cid :=
  s.cidList.foldl (fun best cid => if s.isLinkUp cid ∧ cid < best then cid else best) uint8Max

def setLinkDown (s : LinkState) (cid : Cid) : LinkState × Bool :=
  if s.fixDefaultLink then (s, false)
  else if cid = s.defaultLinkCid then
    let okCid := if s.preferLargeCidValue then s.maxOkCid else s.minOkCid
    (if okCid ≠ uint8Max then { s with defaultLinkCid := okCid } else s, true)
  else (s, true)

def setLinkUp (s : LinkState) (cid : Cid) : LinkState :=
  if s.fixDefaultLink then s
  else if s.preferLargeCidValue then
    if s.defaultLinkCid < cid then { s with defaultLinkCid := cid } else s
  else if cid < s.defaultLinkCid then { s with defaultLinkCid := cid } else s

end DefaultLink

section Causes

def record (s : LinkState) (cause : DownCause) (cids : Finset Cid) : LinkState :=
  { s with downMap := Function.update s.downMap cause cids }

def markDown (s : LinkState) (cause : DownCause) (cid : Cid) : LinkState × Bool :=
  let marked := s.record cause (insert cid (s.downMap cause))
  if s.isLinkUp cid then marked.setLinkDown cid else (marked, false)

def markUp (s : LinkState) (cause : DownCause) (cid : Cid) : LinkState × Bool :=
  if ¬ s.isLinkUp cid ∧ cid ∈ s.downMap cause then
    let cleared := s.record cause ((s.downMap cause).erase cid)
    if cleared.isLinkUp cid then (cleared.setLinkUp cid, true) else (cleared, false)
  else (s, false)

def ctrlMsgDown (s : LinkState) (cid : Cid) : LinkState × Bool := s.markDown .ctrFailed cid
def ctrlMsgUp (s : LinkState) (cid : Cid) : LinkState × Bool := s.markUp .ctrFailed cid
def lowRssiDown (s : LinkState) (cid : Cid) : LinkState × Bool := s.markDown .lowQuality cid
def highRssiUp (s : LinkState) (cid : Cid) : LinkState × Bool := s.markUp .lowQuality cid
def linkBitMapDown (s : LinkState) (cid : Cid) : LinkState × Bool := s.markDown .bitmapFailed cid
def linkBitMapUp (s : LinkState) (cid : Cid) : LinkState × Bool := s.markUp .bitmapFailed cid

end Causes

section Records
variable (s : LinkState) (cause : DownCause) (cid : Cid)

theorem isLinkUp_iff : s.isLinkUp cid ↔ ∀ c, cid ∉ s.downMap c := by
  simp only [isLinkUp, decide_eq_true_eq]
  constructor
  · rintro ⟨h1, h2, h3⟩ c
    cases c with
    | ctrFailed => exact h1
    | lowQuality => exact h2
    | bitmapFailed => exact h3
  · intro h
    exact ⟨h _, h _, h _⟩

theorem setLinkDown_downMap : (s.setLinkDown cid).1.downMap = s.downMap := by
  simp only [setLinkDown]
  split_ifs <;> rfl

theorem setLinkUp_downMap : (s.setLinkUp cid).downMap = s.downMap := by
  simp only [setLinkUp]
  split_ifs <;> rfl

theorem markDown_downMap : (s.markDown cause cid).1.downMap =
    Function.update s.downMap cause (insert cid (s.downMap cause)) := by
  simp only [markDown]
  split_ifs
  · exact setLinkDown_downMap _ _
  · rfl

theorem setLinkDown_cidList : (s.setLinkDown cid).1.cidList = s.cidList := by
  simp only [setLinkDown]
  split_ifs <;> rfl

theorem setLinkUp_cidList : (s.setLinkUp cid).cidList = s.cidList := by
  simp only [setLinkUp]
  split_ifs <;> rfl

theorem markDown_cidList : (s.markDown cause cid).1.cidList = s.cidList := by
  simp only [markDown]
  split_ifs
  · exact setLinkDown_cidList _ _
  · rfl

theorem markUp_cidList : (s.markUp cause cid).1.cidList = s.cidList := by
  simp only [markUp]
  split_ifs
  · exact setLinkUp_cidList _ _
  · rfl
  · rfl

theorem markUp_downMap : (s.markUp cause cid).1.downMap =
    Function.update s.downMap cause ((s.downMap cause).erase cid) := by
  simp only [markUp]
  by_cases h : cid ∈ s.downMap cause
  · have hup : ¬ s.isLinkUp cid := fun hup => (s.isLinkUp_iff cid).mp hup cause h
    rw [if_pos ⟨hup, h⟩]
    split_ifs
    · exact setLinkUp_downMap _ _
    · rfl
  · rw [if_neg fun hc => h hc.2, Finset.erase_eq_of_notMem h, Function.update_eq_self]

end Records
end LinkState
end NetGymSim.Gma

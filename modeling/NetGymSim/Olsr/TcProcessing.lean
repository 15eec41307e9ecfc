import NetGymSim.Olsr.Repositories
import NetGymSim.Lib.Machine
import NetGymSim.Lib.SerialNumber

/-!
# TC messages and the topology set

`ProcessTc` keeps the ANSN of an originator only in its topology tuples and compares it as a
plain number. As long as the ANSNs that arrive do not pass the wrap, and some address stays
advertised under the freshest one, the tuples follow the freshest TC. A timer that finds its
tuple refreshed is scheduled again, so that `timer` may come at any time; `heard` lists the
TCs that came from symmetric neighbours.
-/

namespace NetGymSim.Olsr
open NetGymSim.Lib

structure Tc where
  originatorAddress : Ipv4Address
  vTime : ℕ
  ansn : UInt16
  neighborAddresses : List Ipv4Address
  deriving DecidableEq, Repr

structure TcNode where
  now : ℕ := 0
  linkSet : List LinkTuple
  topologySet : List TopologyTuple := []
  heard : List Tc := []

namespace TcNode

def recordAdvertised (msg : Tc) (time : ℕ) (set : List TopologyTuple) (addr : Ipv4Address) :
    List TopologyTuple :=
  match findTopologyTuple set addr msg.originatorAddress with
  | some _ => setExpirationTime addr msg.originatorAddress time set
  | none => insertTopologyTuple set ⟨addr, msg.originatorAddress, msg.ansn, time⟩

def updateTopology (set : List TopologyTuple) (msg : Tc) (time : ℕ) : List TopologyTuple :=
  if (findNewerTopologyTuple set msg.originatorAddress msg.ansn).isSome then set
  else msg.neighborAddresses.foldl (recordAdvertised msg time)
    (eraseOlderTopologyTuples set msg.originatorAddress msg.ansn)

def processTc (s : TcNode) (msg : Tc) (senderIface : Ipv4Address) : TcNode :=
  match findSymLinkTuple s.linkSet senderIface s.now with
  | none => s
  | some _ =>
    { s with topologySet := updateTopology s.topologySet msg (s.now + msg.vTime)
             heard := s.heard ++ [msg] }

def topologyTupleTimerExpire (s : TcNode) (destAddr lastAddr : Ipv4Address) : TcNode :=
  match findTopologyTuple s.topologySet destAddr lastAddr with
  | none => s
  | some tuple =>
    if tuple.expirationTime < s.now then
      { s with topologySet := eraseTopologyTuple s.topologySet tuple }
    else s

inductive Event
  | wait (time : ℕ)
  | links (linkSet : List LinkTuple)
  | tc (msg : Tc) (senderIface : Ipv4Address)
  | timer (destAddr lastAddr : Ipv4Address)

def next (s : TcNode) : Event → TcNode
  | .wait time => { s with now := s.now + time }
  | .links linkSet => { s with linkSet }
  | .tc msg senderIface => s.processTc msg senderIface
  | .timer destAddr lastAddr => s.topologyTupleTimerExpire destAddr lastAddr

def machine : Machine TcNode Event := ⟨fun _ _ => True, next⟩

instance machine.decidable (s : TcNode) (e : Event) : Decidable (machine.enabled s e) :=
  inferInstanceAs (Decidable True)

def ansnDiff (a b : UInt16) : ℤ := wrapDiff 32768 a.toNat b.toNat

def fresher (best : Option UInt16) (msg : Tc) : Option UInt16 :=
  match best with
  | none => some msg.ansn
  | some b => if 0 < ansnDiff msg.ansn b then some msg.ansn else some b

def heardOf (s : TcNode) (o : Ipv4Address) : List Tc :=
  s.heard.filter fun m => m.originatorAddress = o

def freshest (s : TcNode) (o : Ipv4Address) : Option UInt16 := (s.heardOf o).foldl fresher none

/-- The tuples of an originator carry the freshest ANSN, and their destinations are those
advertised with it. -/
structure FollowsFreshest (s : TcNode) (o : Ipv4Address) : Prop where
  number : ∀ t ∈ s.topologySet, t.lastAddr = o → s.freshest o = some t.sequenceNumber
  destinations : ∀ d, (∃ t ∈ s.topologySet, t.lastAddr = o ∧ t.destAddr = d) ↔
    ∃ m ∈ s.heardOf o, s.freshest o = some m.ansn ∧ d ∈ m.neighborAddresses

def noExpiry (s : TcNode) (destAddr lastAddr o : Ipv4Address) : Prop :=
  lastAddr = o → ∀ t ∈ findTopologyTuple s.topologySet destAddr lastAddr,
    ¬ t.expirationTime < s.now

/-- The ANSNs of an originator span less than half of the sequence space. -/
def halfSpan (o : Ipv4Address) (s : TcNode) : Event → Prop
  | .tc msg _ => msg.originatorAddress = o → ∀ f ∈ s.freshest o,
      -32768 < ansnDiff msg.ansn f ∧ ansnDiff msg.ansn f < 32768
  | .timer destAddr lastAddr => s.noExpiry destAddr lastAddr o
  | _ => True

/-- Moreover they do not pass the wrap, and a TC with an older one arrives only while some
address is advertised with the freshest. -/
def plainSpan (o : Ipv4Address) (s : TcNode) : Event → Prop
  | .tc msg _ => msg.originatorAddress = o → ∀ f ∈ s.freshest o,
      (-32768 < (msg.ansn.toNat : ℤ) - f.toNat ∧ (msg.ansn.toNat : ℤ) - f.toNat < 32768) ∧
      (ansnDiff msg.ansn f < 0 → ∃ m ∈ s.heardOf o, m.ansn = f ∧ m.neighborAddresses ≠ [])
  | .timer destAddr lastAddr => s.noExpiry destAddr lastAddr o
  | _ => True

section Decidability
variable (s : TcNode) (o : Ipv4Address)

instance noExpiry.decidable (destAddr lastAddr : Ipv4Address) :
    Decidable (s.noExpiry destAddr lastAddr o) :=
  inferInstanceAs (Decidable (_ → _))

/-- The search stays within the option, not through all numbers. -/
instance halfSpan.decidable : (e : Event) → Decidable (halfSpan o s e)
  | .tc msg _ =>
      have : Decidable (∀ f ∈ s.freshest o,
          -32768 < ansnDiff msg.ansn f ∧ ansnDiff msg.ansn f < 32768) :=
        Option.decidableForallMem _
      inferInstanceAs (Decidable (msg.originatorAddress = o → _))
  | .timer destAddr lastAddr => noExpiry.decidable s o destAddr lastAddr
  | .wait _ | .links _ => inferInstanceAs (Decidable True)

instance plainSpan.decidable : (e : Event) → Decidable (plainSpan o s e)
  | .tc msg _ =>
      have : Decidable (∀ f ∈ s.freshest o,
          (-32768 < (msg.ansn.toNat : ℤ) - f.toNat ∧ (msg.ansn.toNat : ℤ) - f.toNat < 32768) ∧
          (ansnDiff msg.ansn f < 0 →
            ∃ m ∈ s.heardOf o, m.ansn = f ∧ m.neighborAddresses ≠ [])) :=
        Option.decidableForallMem _
      inferInstanceAs (Decidable (msg.originatorAddress = o → _))
  | .timer destAddr lastAddr => noExpiry.decidable s o destAddr lastAddr
  | .wait _ | .links _ => inferInstanceAs (Decidable True)

end Decidability

section Tuples
variable {set : List TopologyTuple} {msg : Tc} {time : ℕ} {d l o addr last : Ipv4Address}
  {q ansn : UInt16}

def Holds (set : List TopologyTuple) (d l : Ipv4Address) (q : UInt16) : Prop :=
  ∃ t ∈ set, t.destAddr = d ∧ t.lastAddr = l ∧ t.sequenceNumber = q

theorem holds_cons {t : TopologyTuple} : Holds (t :: set) d l q ↔
    (t.destAddr = d ∧ t.lastAddr = l ∧ t.sequenceNumber = q) ∨ Holds set d l q := by
  simp [Holds]

theorem setExpirationTime_holds :
    Holds (setExpirationTime addr last time set) d l q ↔ Holds set d l q := by
  induction set with
  | nil => rfl
  | cons t rest ih =>
    unfold setExpirationTime
    split_ifs
    · rw [holds_cons, holds_cons]
    · rw [holds_cons, holds_cons, ih]

theorem eraseOlder_holds : Holds (eraseOlderTopologyTuples set o ansn) d l q ↔
    Holds set d l q ∧ ¬ (l = o ∧ q < ansn) := by
  unfold Holds eraseOlderTopologyTuples
  constructor
  · rintro ⟨t, ht, rfl, rfl, rfl⟩
    obtain ⟨hm, hn⟩ := List.mem_filter.mp ht
    exact ⟨⟨t, hm, rfl, rfl, rfl⟩, of_decide_eq_true hn⟩
  · rintro ⟨⟨t, ht, rfl, rfl, rfl⟩, hn⟩
    exact ⟨t, List.mem_filter.mpr ⟨ht, decide_eq_true hn⟩, rfl, rfl, rfl⟩

def Current (set : List TopologyTuple) (msg : Tc) : Prop :=
  ∀ d q, Holds set d msg.originatorAddress q → q = msg.ansn

theorem recordAdvertised_holds (h : Current set msg) :
    Holds (recordAdvertised msg time set addr) d l q ↔
      Holds set d l q ∨ (d = addr ∧ l = msg.originatorAddress ∧ q = msg.ansn) := by
  unfold recordAdvertised
  cases hf : findTopologyTuple set addr msg.originatorAddress with
  | none =>
    simp only [insertTopologyTuple, Holds, List.mem_append, List.mem_singleton, or_and_right,
      exists_or, exists_eq_left]
    refine or_congr Iff.rfl ⟨?_, ?_⟩
    · rintro ⟨rfl, rfl, rfl⟩
      exact ⟨rfl, rfl, rfl⟩
    · rintro ⟨rfl, rfl, rfl⟩
      exact ⟨rfl, rfl, rfl⟩
  | some t =>
    have hm := List.mem_of_find?_eq_some hf
    have hp : t.destAddr = addr ∧ t.lastAddr = msg.originatorAddress := by
      simpa using List.find?_some hf
    rw [setExpirationTime_holds]
    refine ⟨.inl, ?_⟩
    rintro (hh | ⟨rfl, rfl, rfl⟩)
    · exact hh
    · have hq : t.sequenceNumber = msg.ansn := h d _ ⟨t, hm, hp.1, hp.2, rfl⟩
      rw [← hp.1, ← hp.2, ← hq]
      exact ⟨t, hm, rfl, rfl, rfl⟩

theorem recordAll_holds (addrs : List Ipv4Address) (h : Current set msg) :
    Holds (addrs.foldl (recordAdvertised msg time) set) d l q ↔
      Holds set d l q ∨ (d ∈ addrs ∧ l = msg.originatorAddress ∧ q = msg.ansn) := by
  induction addrs generalizing set with
  | nil => simp
  | cons addr rest ih =>
    have hnext : Current (recordAdvertised msg time set addr) msg := by
      intro d' q' hh
      rcases (recordAdvertised_holds h).mp hh with hh | ⟨-, -, hq⟩
      · exact h d' q' hh
      · exact hq
    rw [List.foldl_cons, ih hnext, recordAdvertised_holds h, List.mem_cons]
    tauto

theorem findNewer_none : findNewerTopologyTuple set o ansn = none ↔
    ∀ d q, Holds set d o q → ¬ ansn < q := by
  unfold findNewerTopologyTuple
  rw [List.find?_eq_none]
  constructor
  · rintro h d q ⟨t, ht, -, rfl, rfl⟩ hlt
    exact h t ht (by simpa using hlt)
  · intro h t ht hp
    have hp' : t.lastAddr = o ∧ ansn < t.sequenceNumber := by simpa using hp
    exact h t.destAddr _ ⟨t, ht, rfl, hp'.1, rfl⟩ hp'.2

theorem updateTopology_holds
    (h : ∀ d q, Holds set d msg.originatorAddress q → ¬ msg.ansn < q) :
    Holds (updateTopology set msg time) d l q ↔
      (Holds set d l q ∧ ¬ (l = msg.originatorAddress ∧ q < msg.ansn)) ∨
        (d ∈ msg.neighborAddresses ∧ l = msg.originatorAddress ∧ q = msg.ansn) := by
  have hcur : Current (eraseOlderTopologyTuples set msg.originatorAddress msg.ansn) msg := by
    intro d' q' hh
    obtain ⟨hh, hge⟩ := eraseOlder_holds.mp hh
    have hle := h d' q' hh
    simp only [true_and, UInt16.lt_iff_toNat_lt] at hge hle
    exact UInt16.toNat_inj.mp (by omega)
  rw [updateTopology, findNewer_none.mpr h, Option.isSome_none, if_neg (by simp),
    recordAll_holds _ hcur, eraseOlder_holds]

theorem updateTopology_newer (hh : Holds set d msg.originatorAddress q) (hlt : msg.ansn < q) :
    updateTopology set msg time = set := by
  have hsome : (findNewerTopologyTuple set msg.originatorAddress msg.ansn).isSome := by
    by_contra hn
    rw [Option.not_isSome_iff_eq_none, findNewer_none] at hn
    exact hn d q hh hlt
  rw [updateTopology, if_pos hsome]

end Tuples

section Freshest
variable {s : TcNode} {o : Ipv4Address} {msg : Tc} {a b f : UInt16}

theorem ansnDiff_plain (hlo : -32768 < (a.toNat : ℤ) - b.toNat)
    (hhi : (a.toNat : ℤ) - b.toNat < 32768) : ansnDiff a b = a.toNat - b.toNat := by
  rcases wrapDiff_cases 32768 a.toNat b.toNat with h | h | h <;> unfold ansnDiff <;> omega

structure Tracks (s : TcNode) (o : Ipv4Address) : Prop where
  largest : ∀ m ∈ s.heardOf o, ∃ f, s.freshest o = some f ∧ m.ansn.toNat ≤ f.toNat
  holds : ∀ d q, Holds s.topologySet d o q ↔
    s.freshest o = some q ∧ ∃ m ∈ s.heardOf o, m.ansn = q ∧ d ∈ m.neighborAddresses

namespace Tracks

theorem followsFreshest (h : Tracks s o) : FollowsFreshest s o := by
  refine ⟨?_, fun d => ⟨?_, ?_⟩⟩
  · rintro t ht rfl
    exact ((h.holds _ _).mp ⟨t, ht, rfl, rfl, rfl⟩).1
  · rintro ⟨t, ht, rfl, rfl⟩
    obtain ⟨hf, m, hm, hq, hd⟩ := (h.holds _ _).mp ⟨t, ht, rfl, rfl, rfl⟩
    exact ⟨m, hm, hq ▸ hf, hd⟩
  · rintro ⟨m, hm, hf, hd⟩
    obtain ⟨t, ht, htd, hto, -⟩ := (h.holds d _).mpr ⟨hf, m, hm, rfl, hd⟩
    exact ⟨t, ht, hto, htd⟩

theorem congr {s' : TcNode} (h : Tracks s o) (ht : s'.topologySet = s.topologySet)
    (hh : s'.heard = s.heard) : Tracks s' o := by
  have hof : s'.heardOf o = s.heardOf o := by rw [heardOf, hh]; rfl
  have hfr : s'.freshest o = s.freshest o := by rw [freshest, hof]; rfl
  refine ⟨?_, ?_⟩
  · rw [hof, hfr]; exact h.largest
  · rw [ht, hof, hfr]; exact h.holds

theorem other (h : Tracks s o) (hne : msg.originatorAddress ≠ o) (time : ℕ) :
    Tracks { s with topologySet := updateTopology s.topologySet msg time
                    heard := s.heard ++ [msg] } o := by
  have hof : heardOf { s with topologySet := updateTopology s.topologySet msg time
                              heard := s.heard ++ [msg] } o = s.heardOf o := by
    simp [heardOf, hne]
  have hset : ∀ d q, Holds (updateTopology s.topologySet msg time) d o q ↔
      Holds s.topologySet d o q := by
    intro d q
    by_cases hnew : ∀ d q, Holds s.topologySet d msg.originatorAddress q → ¬ msg.ansn < q
    · rw [updateTopology_holds hnew]
      simp [Ne.symm hne]
    · push Not at hnew
      obtain ⟨d', q', hh, hlt⟩ := hnew
      rw [updateTopology_newer hh hlt]
  refine ⟨?_, fun d q => ?_⟩
  · rw [freshest, hof]; exact h.largest
  · rw [freshest, hof]; exact (hset d q).trans (h.holds d q)

theorem accepted (h : Tracks s o) (ho : msg.originatorAddress = o) (time : ℕ)
    (hle : ∀ f, s.freshest o = some f → ¬ msg.ansn < f)
    (hf : fresher (s.freshest o) msg = some msg.ansn) :
    Tracks { s with topologySet := updateTopology s.topologySet msg time
                    heard := s.heard ++ [msg] } o := by
  subst ho
  have hof : heardOf { s with topologySet := updateTopology s.topologySet msg time
                              heard := s.heard ++ [msg] } msg.originatorAddress =
      s.heardOf msg.originatorAddress ++ [msg] := by
    simp [heardOf]
  have hfr : freshest { s with topologySet := updateTopology s.topologySet msg time
                               heard := s.heard ++ [msg] } msg.originatorAddress =
      some msg.ansn := by
    rw [freshest, hof, List.foldl_append]
    exact hf
  have hnew : ∀ d q, Holds s.topologySet d msg.originatorAddress q → ¬ msg.ansn < q :=
    fun d q hh => hle q ((h.holds d q).mp hh).1
  refine ⟨fun m hm => ⟨msg.ansn, hfr, ?_⟩, fun d q => ?_⟩
  · rw [hof] at hm
    rcases List.mem_append.mp hm with hm | hm
    · obtain ⟨f, hff, hmf⟩ := h.largest m hm
      have := hle f hff
      rw [UInt16.lt_iff_toNat_lt] at this
      omega
    · rw [List.mem_singleton.mp hm]
  · rw [updateTopology_holds hnew, h.holds, hfr, hof]
    constructor
    · rintro (⟨⟨hq, m, hm, hmq, hd⟩, hge⟩ | ⟨hd, -, rfl⟩)
      · have h1 := hle q hq
        simp only [true_and, UInt16.lt_iff_toNat_lt] at hge h1
        have heq : msg.ansn = q := UInt16.toNat_inj.mp (by omega)
        exact ⟨congrArg some heq, m, List.mem_append_left _ hm, hmq, hd⟩
      · exact ⟨rfl, msg, by simp, rfl, hd⟩
    · rintro ⟨hq, m, hm, hmq, hd⟩
      obtain rfl := Option.some.inj hq
      rcases List.mem_append.mp hm with hm | hm
      · obtain ⟨f, hff, hmf⟩ := h.largest m hm
        have h1 := hle f hff
        rw [UInt16.lt_iff_toNat_lt] at h1
        have heq : f = msg.ansn := UInt16.toNat_inj.mp (by rw [hmq] at hmf; omega)
        exact .inl ⟨⟨heq ▸ hff, m, hm, hmq, hd⟩, fun hlt => absurd hlt.2 (by simp)⟩
      · exact .inr ⟨List.mem_singleton.mp hm ▸ hd, rfl, rfl⟩

theorem older (h : Tracks s o) (ho : msg.originatorAddress = o)
    (hf : s.freshest o = some f) (hlt : msg.ansn < f) (hdiff : ansnDiff msg.ansn f < 0) :
    Tracks { s with heard := s.heard ++ [msg] } o := by
  subst ho
  have hof : heardOf { s with heard := s.heard ++ [msg] } msg.originatorAddress =
      s.heardOf msg.originatorAddress ++ [msg] := by
    simp [heardOf]
  have hfr : freshest { s with heard := s.heard ++ [msg] } msg.originatorAddress = some f := by
    have hstep : fresher (some f) msg = some f := by
      simp only [fresher, if_neg (show ¬ 0 < ansnDiff msg.ansn f by omega)]
    rw [freshest, hof, List.foldl_append]
    exact (congrArg (fresher · msg) hf).trans hstep
  refine ⟨fun m hm => ⟨f, hfr, ?_⟩, fun d q => ?_⟩
  · rw [hof] at hm
    rcases List.mem_append.mp hm with hm | hm
    · obtain ⟨f', hff, hmf⟩ := h.largest m hm
      obtain rfl := Option.some.inj (hf.symm.trans hff)
      exact hmf
    · rw [List.mem_singleton.mp hm]
      exact (UInt16.lt_iff_toNat_lt.mp hlt).le
  · refine (h.holds d q).trans ?_
    rw [hf, hfr, hof]
    refine and_congr_right fun hq => ?_
    obtain rfl := Option.some.inj hq
    constructor
    · rintro ⟨m, hm, hmq, hd⟩
      exact ⟨m, List.mem_append_left _ hm, hmq, hd⟩
    · rintro ⟨m, hm, hmq, hd⟩
      rcases List.mem_append.mp hm with hm | hm
      · exact ⟨m, hm, hmq, hd⟩
      · rw [List.mem_singleton.mp hm] at hmq
        exact absurd hlt (by simp [hmq])

end Tracks

theorem updateTopology_older (h : Tracks s o) (ho : msg.originatorAddress = o) (time : ℕ)
    (hf : s.freshest o = some f) (hlt : msg.ansn < f)
    (hm : ∃ m ∈ s.heardOf o, m.ansn = f ∧ m.neighborAddresses ≠ []) :
    updateTopology s.topologySet msg time = s.topologySet := by
  obtain ⟨m, hm, hmf, hne⟩ := hm
  obtain ⟨d, hd⟩ := List.exists_mem_of_ne_nil _ hne
  have hh : Holds s.topologySet d o f := (h.holds d f).mpr ⟨hf, m, hm, hmf, hd⟩
  exact updateTopology_newer (ho.symm ▸ hh) hlt

theorem Tracks.tc (h : Tracks s o) (senderIface : Ipv4Address)
    (hok : plainSpan o s (.tc msg senderIface)) : Tracks (s.processTc msg senderIface) o := by
  unfold processTc
  cases findSymLinkTuple s.linkSet senderIface s.now with
  | none => exact h
  | some _ =>
    by_cases ho : msg.originatorAddress = o
    · cases hf : s.freshest o with
      | none => exact h.accepted ho _ (by simp [hf]) (by rw [hf]; rfl)
      | some f =>
        obtain ⟨⟨hlo, hhi⟩, hold⟩ := hok ho f hf
        have hdiff := ansnDiff_plain hlo hhi
        by_cases hlt : msg.ansn < f
        · have hneg : ansnDiff msg.ansn f < 0 := by
            rw [UInt16.lt_iff_toNat_lt] at hlt
            omega
          have hsame := updateTopology_older h ho (s.now + msg.vTime) hf hlt (hold hneg)
          simp only [hsame]
          exact h.older ho hf hlt hneg
        · refine h.accepted ho _ (fun f' hf' => ?_) ?_
          · rw [← Option.some.inj (hf.symm.trans hf')]
            exact hlt
          · rw [UInt16.lt_iff_toNat_lt] at hlt
            simp only [hf, fresher]
            split_ifs with hpos
            · rfl
            · exact congrArg some (UInt16.toNat_inj.mp (by omega))
    · exact h.other ho _

theorem erase_other {d l : Ipv4Address} {q : UInt16} {set : List TopologyTuple}
    {tuple : TopologyTuple} (hne : tuple.lastAddr ≠ l) :
    Holds (eraseTopologyTuple set tuple) d l q ↔ Holds set d l q := by
  unfold eraseTopologyTuple
  induction set with
  | nil => rfl
  | cons t rest ih =>
    by_cases hp : t.destAddr = tuple.destAddr ∧ t.lastAddr = tuple.lastAddr ∧
        t.sequenceNumber = tuple.sequenceNumber
    · rw [List.eraseP_cons_of_pos (by simpa using hp), holds_cons, hp.2.1]
      simp [hne]
    · rw [List.eraseP_cons_of_neg (by simpa using hp), holds_cons, holds_cons, ih]

theorem Tracks.timer (h : Tracks s o) {destAddr lastAddr : Ipv4Address}
    (hok : s.noExpiry destAddr lastAddr o) :
    Tracks (s.topologyTupleTimerExpire destAddr lastAddr) o := by
  unfold topologyTupleTimerExpire
  cases hf : findTopologyTuple s.topologySet destAddr lastAddr with
  | none => exact h
  | some tuple =>
    dsimp only
    split_ifs with hexp
    · have hlast : tuple.lastAddr = lastAddr := by
        have hp : tuple.destAddr = destAddr ∧ tuple.lastAddr = lastAddr := by
          simpa using List.find?_some hf
        exact hp.2
      have hne : tuple.lastAddr ≠ o := fun ho => hok (hlast ▸ ho) tuple hf hexp
      exact ⟨h.largest, fun d q => (erase_other hne).trans (h.holds d q)⟩
    · exact h

theorem Tracks.step (h : Tracks s o) (e : Event) (hok : plainSpan o s e) :
    Tracks (s.next e) o := by
  cases e with
  | wait time => exact h.congr rfl rfl
  | links linkSet => exact h.congr rfl rfl
  | tc msg senderIface => exact h.tc senderIface hok
  | timer destAddr lastAddr => exact h.timer hok

end Freshest

def start (linkSet : List LinkTuple) : TcNode := { linkSet }

theorem topology_follows_freshest (o : Ipv4Address) (linkSet : List LinkTuple) {es : List Event}
    {s : TcNode} (h : (machine.restrict (plainSpan o)).Reaches (start linkSet) es s) :
    FollowsFreshest s o ∧
      ∀ (msg : Tc) (senderIface : Ipv4Address) (f : UInt16), msg.originatorAddress = o →
        plainSpan o s (.tc msg senderIface) → s.freshest o = some f → ansnDiff msg.ansn f < 0 →
        (s.next (.tc msg senderIface)).topologySet = s.topologySet := by
  have htracks : Tracks s o := by
    refine Machine.Reaches.invariant (P := fun t => Tracks t o) ?_ ?_ h
    · refine ⟨fun m hm => ?_, fun d q => ?_⟩
      · simp [start, heardOf] at hm
      · simp [start, Holds, heardOf]
    · intro t e ht ⟨_, hok⟩
      exact ht.step e hok
  refine ⟨htracks.followsFreshest, ?_⟩
  intro msg senderIface f ho hok hf hneg
  obtain ⟨⟨hlo, hhi⟩, hold⟩ := hok ho f hf
  have hlt : msg.ansn < f := by
    have hdiff := ansnDiff_plain hlo hhi
    rw [UInt16.lt_iff_toNat_lt]
    omega
  simp only [next, processTc]
  cases findSymLinkTuple s.linkSet senderIface s.now with
  | none => rfl
  | some _ => exact updateTopology_older htracks ho _ hf hlt (hold hneg)

def oneLink : List LinkTuple := [⟨9, 1000⟩]

def tcFrom (ansn : UInt16) (addrs : List Ipv4Address) : Event := .tc ⟨7, 15, ansn, addrs⟩ 9

def reorderedRun : List Event :=
  [tcFrom 4 [1], tcFrom 5 [2, 3], tcFrom 5 [4], tcFrom 3 [5], .timer 2 7]

theorem topology_follows_freshest_reordered :
    FollowsFreshest (machine.exec (start oneLink) reorderedRun) 7 ∧
      ((machine.exec (start oneLink) reorderedRun).next (tcFrom 4 [1])).topologySet =
        (machine.exec (start oneLink) reorderedRun).topologySet := by
  have h : (machine.restrict (plainSpan 7)).Reaches (start oneLink) reorderedRun
      (machine.exec (start oneLink) reorderedRun) :=
    Machine.Permits.reaches (by decide +kernel)
  have hfollows := topology_follows_freshest 7 oneLink h
  exact ⟨hfollows.1, hfollows.2 ⟨7, 15, 4, [1]⟩ 9 5 rfl (by decide +kernel) (by decide +kernel)
    (by decide +kernel)⟩

/-- A TC that advertises nothing leaves no trace of its ANSN, and an older one is taken for
new; and the ANSN after 65535 is taken for an old one. -/
theorem freshest_ansn_forgotten :
    (∃ s, (machine.restrict (halfSpan 7)).Reaches (start oneLink)
        [tcFrom 5 [1], tcFrom 6 [], tcFrom 5 [1]] s ∧ ¬ FollowsFreshest s 7) ∧
      ∃ s, (machine.restrict (halfSpan 7)).Reaches (start oneLink)
        [tcFrom 65535 [1], tcFrom 0 [2]] s ∧ ¬ FollowsFreshest s 7 := by
  refine ⟨⟨_, Machine.Permits.reaches (by decide +kernel), fun h => ?_⟩,
    ⟨_, Machine.Permits.reaches (by decide +kernel), fun h => ?_⟩⟩
  · exact absurd (h.number ⟨1, 7, 5, 15⟩ (by decide +kernel) rfl) (by decide +kernel)
  · exact absurd (h.number ⟨1, 7, 65535, 15⟩ (by decide +kernel) rfl) (by decide +kernel)

end TcNode
end NetGymSim.Olsr

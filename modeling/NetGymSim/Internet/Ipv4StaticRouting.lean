import Mathlib.Data.List.Basic
import Mathlib.Tactic.Common
import NetGymSim.Lib.Machine

/-!
# `Ipv4StaticRouting`

The routes are looked through from the first to the last. A route that matches replaces the one
that was found if its mask is longer, or as long and its metric is not greater; the first one with
a mask of 32 bits ends the search, whatever metrics the host routes behind it have.
-/

namespace NetGymSim.Internet
open NetGymSim.Lib

structure Ipv4RoutingTableEntry where
  dest : ℕ
  destNetworkMask : ℕ
  gateway : ℕ
  interface : ℕ
  deriving DecidableEq

abbrev NetworkRoutes := List (Ipv4RoutingTableEntry × ℕ)

def isMatch (mask a b : ℕ) : Bool := a &&& mask = b &&& mask

def getPrefixLength (mask : ℕ) : ℕ := go 32 mask
where
  go : ℕ → ℕ → ℕ
    | 0, _ => 0
    | n + 1, mask => if mask = 0 then 0 else go n ((mask <<< 1) % 2 ^ 32) + 1

def isLocalMulticast (address : ℕ) : Bool := address &&& 0xffffff00 = 0xe0000000

namespace NetworkRoutes

def lookupRoute (routes : NetworkRoutes) (route : Ipv4RoutingTableEntry) (metric : ℕ) : Bool :=
  (route, metric) ∈ routes

def addNetworkRouteTo (routes : NetworkRoutes) (network networkMask nextHop interface metric : ℕ) :
    NetworkRoutes :=
  let route := ⟨network, networkMask, nextHop, interface⟩
  if routes.lookupRoute route metric then routes else routes ++ [(route, metric)]

def addHostRouteTo (routes : NetworkRoutes) (dest nextHop interface metric : ℕ) : NetworkRoutes :=
  routes.addNetworkRouteTo dest 0xffffffff nextHop interface metric

def setDefaultRoute (routes : NetworkRoutes) (nextHop interface metric : ℕ) : NetworkRoutes :=
  routes.addNetworkRouteTo 0 0 nextHop interface metric

def removeRoute (routes : NetworkRoutes) (index : ℕ) : NetworkRoutes := routes.eraseIdx index

end NetworkRoutes

theorem getPrefixLength_le (mask : ℕ) : getPrefixLength mask ≤ 32 := by
  have hgo : ∀ n mask, getPrefixLength.go n mask ≤ n := by
    intro n
    induction n with
    | zero => exact fun _ => Nat.le_refl 0
    | succ n ih =>
      intro mask
      rw [getPrefixLength.go]
      split_ifs
      · exact Nat.zero_le _
      · exact Nat.succ_le_succ (ih _)
  exact hgo 32 mask

def contiguousMask (p : ℕ) : ℕ := 2 ^ 32 - 2 ^ (32 - p)

theorem getPrefixLength_contiguous {p : ℕ} (hp : p ≤ 32) :
    getPrefixLength (contiguousMask p) = p := by
  revert p
  decide

def HasPrefix (mask p : ℕ) : Prop := p ≤ 32 ∧ mask = contiguousMask p

instance (mask p : ℕ) : Decidable (HasPrefix mask p) :=
  inferInstanceAs (Decidable (p ≤ 32 ∧ mask = contiguousMask p))

theorem HasPrefix.length_eq {mask p : ℕ} (h : HasPrefix mask p) : getPrefixLength mask = p := by
  rw [h.2, getPrefixLength_contiguous h.1]

/-- What the routing asks of `m_ipv4`. -/
structure Ipv4 (δ : Type*) where
  getNetDevice : ℕ → δ
  sourceAddressSelection : ℕ → ℕ → ℕ
  localAddress : δ → ℕ

structure Ipv4Route (δ : Type*) where
  destination : ℕ
  source : ℕ
  gateway : ℕ
  outputDevice : δ

section Lookup
variable {δ : Type*} [DecidableEq δ] (ipv4 : Ipv4 δ) (dest : ℕ) (oif : Option δ)

structure Scan where
  chosen : Option (Ipv4RoutingTableEntry × ℕ) := none
  longestMask : ℕ := 0
  shortestMetric : ℕ := 0xffffffff

/-- One route; a host route ends the search. -/
def consider (s : Scan) (r : Ipv4RoutingTableEntry × ℕ) : Turn Scan :=
  let (j, metric) := r
  let masklen := getPrefixLength j.destNetworkMask
  if isMatch j.destNetworkMask dest j.dest then
    if oif.any fun oif => oif ≠ ipv4.getNetDevice j.interface then .again s
    else if masklen < s.longestMask then .again s
    else
      let shortestMetric := if masklen > s.longestMask then 0xffffffff else s.shortestMetric
      if metric > shortestMetric then
        .again { s with longestMask := masklen, shortestMetric := shortestMetric }
      else
        let s : Scan := ⟨some (j, metric), masklen, metric⟩
        if masklen = 32 then .done s else .again s
  else .again s

def scan : NetworkRoutes → Scan → Scan
  | [], s => s
  | r :: routes, s =>
      match consider ipv4 dest oif s r with
      | .again s => scan routes s
      | .done s => s

/-- The entry that `LookupStatic` takes, with its metric. -/
def chooseRoute (routes : NetworkRoutes) : Option (Ipv4RoutingTableEntry × ℕ) :=
  (scan ipv4 dest oif routes {}).chosen

def routeOf (j : Ipv4RoutingTableEntry) : Ipv4Route δ where
  destination := j.dest
  source := ipv4.sourceAddressSelection j.interface j.dest
  gateway := j.gateway
  outputDevice := ipv4.getNetDevice j.interface

/-- It is missing when a link-local multicast has no interface given. -/
def lookupStatic (routes : NetworkRoutes) : Option (Option (Ipv4Route δ)) :=
  if isLocalMulticast dest then oif.map fun oif => some ⟨dest, ipv4.localAddress oif, 0, oif⟩
  else some ((chooseRoute ipv4 dest oif routes).map fun r => routeOf ipv4 r.1)

def serves (j : Ipv4RoutingTableEntry) : Bool :=
  isMatch j.destNetworkMask dest j.dest &&
    !oif.any fun oif => oif ≠ ipv4.getNetDevice j.interface

/-- The longest prefix first, then the smallest metric; nothing only when no entry serves. -/
def LongestMatch (routes : NetworkRoutes) : Option (Ipv4RoutingTableEntry × ℕ) → Prop
  | none => ∀ r ∈ routes, ¬ serves ipv4 dest oif r.1
  | some r => r ∈ routes ∧ serves ipv4 dest oif r.1 ∧
      ∀ q ∈ routes, serves ipv4 dest oif q.1 →
        ∀ p p', HasPrefix r.1.destNetworkMask p → HasPrefix q.1.destNetworkMask p' →
          p' ≤ p ∧ (p' = p → r.2 ≤ q.2)

def isHost (r : Ipv4RoutingTableEntry × ℕ) : Bool :=
  serves ipv4 dest oif r.1 && getPrefixLength r.1.destNetworkMask = 32

def HostFirst (routes : NetworkRoutes) : Prop :=
  ∀ r, routes.find? (isHost ipv4 dest oif) = some r →
    ∀ q ∈ routes, isHost ipv4 dest oif q → r.2 ≤ q.2

structure BestSoFar (done : NetworkRoutes) (s : Scan) : Prop where
  nothing : s.chosen = none → s.longestMask = 0 ∧ s.shortestMetric = 0xffffffff ∧
    ∀ q ∈ done, ¬ serves ipv4 dest oif q.1
  best : ∀ r, s.chosen = some r → r ∈ done ∧ serves ipv4 dest oif r.1 ∧
    s.longestMask = getPrefixLength r.1.destNetworkMask ∧ s.shortestMetric = r.2 ∧
    ∀ q ∈ done, serves ipv4 dest oif q.1 →
      getPrefixLength q.1.destNetworkMask ≤ getPrefixLength r.1.destNetworkMask ∧
      (getPrefixLength q.1.destNetworkMask = getPrefixLength r.1.destNetworkMask → r.2 ≤ q.2)

variable {ipv4 dest oif} {done : NetworkRoutes} {s : Scan} {r : Ipv4RoutingTableEntry × ℕ}

theorem BestSoFar.skip (hs : BestSoFar ipv4 dest oif done s) (hr : ¬ serves ipv4 dest oif r.1) :
    BestSoFar ipv4 dest oif (done ++ [r]) s := by
  constructor
  · intro hnone
    obtain ⟨hlong, hshort, hall⟩ := hs.nothing hnone
    refine ⟨hlong, hshort, fun q hq => ?_⟩
    obtain hq | hq := List.mem_append.mp hq
    · exact hall q hq
    · rw [List.mem_singleton.mp hq]
      exact hr
  · intro c hc
    obtain ⟨hmem, hserves, hlong, hshort, hall⟩ := hs.best c hc
    refine ⟨List.mem_append_left [r] hmem, hserves, hlong, hshort, fun q hq hqs => ?_⟩
    obtain hq | hq := List.mem_append.mp hq
    · exact hall q hq hqs
    · rw [List.mem_singleton.mp hq] at hqs
      exact absurd hqs hr

theorem BestSoFar.keep (hs : BestSoFar ipv4 dest oif done s) {c : Ipv4RoutingTableEntry × ℕ}
    (hc : s.chosen = some c)
    (hworse : getPrefixLength r.1.destNetworkMask ≤ getPrefixLength c.1.destNetworkMask ∧
      (getPrefixLength r.1.destNetworkMask = getPrefixLength c.1.destNetworkMask → c.2 ≤ r.2)) :
    BestSoFar ipv4 dest oif (done ++ [r]) s := by
  constructor
  · intro hnone
    rw [hc] at hnone
    cases hnone
  · intro c' hc'
    rw [hc] at hc'
    cases hc'
    obtain ⟨hmem, hserves, hlong, hshort, hall⟩ := hs.best c hc
    refine ⟨List.mem_append_left [r] hmem, hserves, hlong, hshort, fun q hq hqs => ?_⟩
    obtain hq | hq := List.mem_append.mp hq
    · exact hall q hq hqs
    · rw [List.mem_singleton.mp hq]
      exact hworse

theorem BestSoFar.take (hs : BestSoFar ipv4 dest oif done s) (hr : serves ipv4 dest oif r.1)
    (hbetter : ∀ c, s.chosen = some c →
      getPrefixLength c.1.destNetworkMask ≤ getPrefixLength r.1.destNetworkMask ∧
      (getPrefixLength c.1.destNetworkMask = getPrefixLength r.1.destNetworkMask → r.2 ≤ c.2)) :
    BestSoFar ipv4 dest oif (done ++ [r]) ⟨some r, getPrefixLength r.1.destNetworkMask, r.2⟩ := by
  constructor
  · intro hnone
    cases hnone
  · intro c' hc'
    cases hc'
    refine ⟨List.mem_append_right done List.mem_cons_self, hr, rfl, rfl, fun q hq hqs => ?_⟩
    obtain hq | hq := List.mem_append.mp hq
    · cases hchosen : s.chosen with
      | none => exact absurd hqs ((hs.nothing hchosen).2.2 q hq)
      | some c =>
        obtain ⟨hle, hmetric⟩ := hbetter c hchosen
        obtain ⟨hle', hmetric'⟩ := (hs.best c hchosen).2.2.2.2 q hq hqs
        refine ⟨Nat.le_trans hle' hle, fun heq => ?_⟩
        have hsame : getPrefixLength c.1.destNetworkMask = getPrefixLength r.1.destNetworkMask := by
          omega
        exact Nat.le_trans (hmetric hsame) (hmetric' (heq.trans hsame.symm))
    · rw [List.mem_singleton.mp hq]
      exact ⟨Nat.le_refl _, fun _ => Nat.le_refl _⟩

theorem serves_iff : serves ipv4 dest oif r.1 = true ↔
    isMatch r.1.destNetworkMask dest r.1.dest = true ∧
      ¬ (oif.any fun oif => oif ≠ ipv4.getNetDevice r.1.interface) = true := by
  rw [serves, Bool.and_eq_true, Bool.not_eq_true', Bool.not_eq_true]

theorem isHost_iff : isHost ipv4 dest oif r = true ↔
    serves ipv4 dest oif r.1 = true ∧ getPrefixLength r.1.destNetworkMask = 32 := by
  rw [isHost, Bool.and_eq_true, decide_eq_true_eq]

theorem consider_spec (hs : BestSoFar ipv4 dest oif done s)
    (hnone : ∀ q ∈ done, ¬ isHost ipv4 dest oif q) (hmetric : r.2 < 2 ^ 32) :
    match consider ipv4 dest oif s r with
    | .again s' => BestSoFar ipv4 dest oif (done ++ [r]) s' ∧ ¬ isHost ipv4 dest oif r
    | .done s' => s'.chosen = some r ∧ isHost ipv4 dest oif r := by
  obtain ⟨j, metric⟩ := r
  have hserves := @serves_iff δ _ ipv4 dest oif (j, metric)
  have hle := getPrefixLength_le j.destNetworkMask
  unfold consider
  dsimp only at hserves hmetric ⊢
  by_cases hmatch : isMatch j.destNetworkMask dest j.dest = true
  · rw [if_pos hmatch]
    by_cases hdevice : (oif.any fun oif => oif ≠ ipv4.getNetDevice j.interface) = true
    · rw [if_pos hdevice]
      have hr : ¬ serves ipv4 dest oif j := fun hr => (hserves.mp hr).2 hdevice
      exact ⟨hs.skip hr, fun hhost => hr (isHost_iff.mp hhost).1⟩
    · rw [if_neg hdevice]
      have hr : serves ipv4 dest oif j := hserves.mpr ⟨hmatch, hdevice⟩
      by_cases hshorter : getPrefixLength j.destNetworkMask < s.longestMask
      · rw [if_pos hshorter]
        cases hchosen : s.chosen with
        | none =>
          have := (hs.nothing hchosen).1
          omega
        | some c =>
          have hlong := (hs.best c hchosen).2.2.1
          have hmax := getPrefixLength_le c.1.destNetworkMask
          refine ⟨hs.keep hchosen ⟨by dsimp only; omega, fun heq => ?_⟩, fun hhost => ?_⟩
          · dsimp only at heq
            omega
          · have := (isHost_iff.mp hhost).2
            dsimp only at this
            omega
      · rw [if_neg hshorter]
        by_cases hgreater : metric > (if getPrefixLength j.destNetworkMask > s.longestMask then
            0xffffffff else s.shortestMetric)
        · -- only the metric of a route with a mask as long can be smaller
          rw [if_pos hgreater]
          have hsame : getPrefixLength j.destNetworkMask = s.longestMask := by
            split_ifs at hgreater <;> omega
          rw [hsame, if_neg (Nat.lt_irrefl _)] at hgreater
          rw [hsame, if_neg (Nat.lt_irrefl _)]
          obtain ⟨c, hchosen⟩ : ∃ c, s.chosen = some c := by
            cases hchosen : s.chosen with
            | none =>
              have := (hs.nothing hchosen).2.1
              omega
            | some c => exact ⟨c, rfl⟩
          obtain ⟨hmem, hserves', hlong, hshort, _⟩ := hs.best c hchosen
          constructor
          · apply hs.keep hchosen
            dsimp only
            omega
          · intro hhost
            have hlength := (isHost_iff.mp hhost).2
            dsimp only at hlength
            exact hnone c hmem (isHost_iff.mpr ⟨hserves', by omega⟩)
        · rw [if_neg hgreater]
          have hbetter : ∀ c, s.chosen = some c →
              getPrefixLength c.1.destNetworkMask ≤ getPrefixLength j.destNetworkMask ∧
              (getPrefixLength c.1.destNetworkMask = getPrefixLength j.destNetworkMask →
                metric ≤ c.2) := by
            intro c hc
            obtain ⟨_, _, hlong, hshort, _⟩ := hs.best c hc
            refine ⟨by omega, fun heq => ?_⟩
            rw [if_neg (by omega)] at hgreater
            omega
          by_cases hhost : getPrefixLength j.destNetworkMask = 32
          · rw [if_pos hhost]
            exact ⟨rfl, isHost_iff.mpr ⟨hr, hhost⟩⟩
          · rw [if_neg hhost]
            exact ⟨hs.take (r := (j, metric)) hr hbetter, fun h => hhost (isHost_iff.mp h).2⟩
  · rw [if_neg hmatch]
    have hr : ¬ serves ipv4 dest oif j := fun hr => hmatch (hserves.mp hr).1
    exact ⟨hs.skip hr, fun hhost => hr (isHost_iff.mp hhost).1⟩

theorem scan_spec {routes : NetworkRoutes} (hs : BestSoFar ipv4 dest oif done s)
    (hnone : ∀ q ∈ done, ¬ isHost ipv4 dest oif q) (hmetric : ∀ r ∈ routes, r.2 < 2 ^ 32) :
    match routes.find? (isHost ipv4 dest oif) with
    | none => BestSoFar ipv4 dest oif (done ++ routes) (scan ipv4 dest oif routes s)
    | some r => (scan ipv4 dest oif routes s).chosen = some r := by
  induction routes generalizing done s with
  | nil =>
    rw [List.append_nil]
    exact hs
  | cons r routes ih =>
    have hspec := consider_spec hs hnone (hmetric r List.mem_cons_self)
    rw [scan, List.find?_cons]
    cases hturn : consider ipv4 dest oif s r with
    | done s' =>
      rw [hturn] at hspec
      rw [hspec.2]
      exact hspec.1
    | again s' =>
      rw [hturn] at hspec
      have hdone : ∀ q ∈ done ++ [r], ¬ isHost ipv4 dest oif q := by
        intro q hq
        obtain hq | hq := List.mem_append.mp hq
        · exact hnone q hq
        · rw [List.mem_singleton.mp hq]
          exact hspec.2
      have hrest := ih hspec.1 hdone fun q hq => hmetric q (List.mem_cons_of_mem r hq)
      rw [List.append_assoc, List.singleton_append] at hrest
      rw [Bool.eq_false_iff.mpr hspec.2]
      exact hrest

theorem BestSoFar.start : BestSoFar ipv4 dest oif [] {} :=
  ⟨fun _ => ⟨rfl, rfl, fun _ hq => (List.not_mem_nil hq).elim⟩, nofun⟩

theorem BestSoFar.longestMatch {routes : NetworkRoutes} (hs : BestSoFar ipv4 dest oif routes s) :
    LongestMatch ipv4 dest oif routes s.chosen := by
  cases hchosen : s.chosen with
  | none => exact (hs.nothing hchosen).2.2
  | some r =>
    obtain ⟨hmem, hserves, _, _, hall⟩ := hs.best r hchosen
    refine ⟨hmem, hserves, fun q hq hqs p p' hp hp' => ?_⟩
    rw [← hp.length_eq, ← hp'.length_eq]
    exact hall q hq hqs

theorem longestMatch_host_iff {routes : NetworkRoutes}
    (hmask : ∀ r ∈ routes, ∃ p, HasPrefix r.1.destNetworkMask p) (hmem : r ∈ routes)
    (hr : isHost ipv4 dest oif r) :
    LongestMatch ipv4 dest oif routes (some r) ↔
      ∀ q ∈ routes, isHost ipv4 dest oif q → r.2 ≤ q.2 := by
  obtain ⟨hserves, hlength⟩ := isHost_iff.mp hr
  constructor
  · intro hbest q hq hhost
    obtain ⟨hqs, hqlength⟩ := isHost_iff.mp hhost
    obtain ⟨p, hp⟩ := hmask r hmem
    obtain ⟨p', hp'⟩ := hmask q hq
    have hsame : p' = p := by rw [← hp.length_eq, ← hp'.length_eq, hlength, hqlength]
    exact (hbest.2.2 q hq hqs p p' hp hp').2 hsame
  · intro hleast
    refine ⟨hmem, hserves, fun q hq hqs p p' hp hp' => ?_⟩
    have hp32 : p = 32 := by rw [← hp.length_eq, hlength]
    refine ⟨hp32 ▸ hp'.1, fun heq => hleast q hq (isHost_iff.mpr ⟨hqs, ?_⟩)⟩
    rw [hp'.length_eq, heq, hp32]

variable (ipv4 dest oif) in
theorem lookupStatic_longestMatch_iff {routes : NetworkRoutes}
    (hmask : ∀ r ∈ routes, ∃ p, HasPrefix r.1.destNetworkMask p)
    (hmetric : ∀ r ∈ routes, r.2 < 2 ^ 32) (hdest : isLocalMulticast dest = false) :
    (lookupStatic ipv4 dest oif routes =
        some ((chooseRoute ipv4 dest oif routes).map fun r => routeOf ipv4 r.1) ∧
      LongestMatch ipv4 dest oif routes (chooseRoute ipv4 dest oif routes)) ↔
    HostFirst ipv4 dest oif routes := by
  have hlookup : lookupStatic ipv4 dest oif routes =
      some ((chooseRoute ipv4 dest oif routes).map fun r => routeOf ipv4 r.1) := by
    rw [lookupStatic, hdest]
    rfl
  have hspec := @scan_spec δ _ ipv4 dest oif [] {} routes BestSoFar.start
    (fun _ hq => (List.not_mem_nil hq).elim) hmetric
  rw [and_iff_right hlookup]
  cases hfind : routes.find? (isHost ipv4 dest oif) with
  | none =>
    rw [hfind] at hspec
    apply iff_of_true
    · exact hspec.longestMatch
    · intro r hr
      rw [hfind] at hr
      cases hr
  | some r =>
    rw [hfind] at hspec
    dsimp only at hspec
    rw [chooseRoute, hspec, longestMatch_host_iff hmask (List.mem_of_find?_eq_some hfind)
      (List.find?_some hfind)]
    constructor
    · intro hleast r' hr'
      rw [hfind] at hr'
      cases hr'
      exact hleast
    · intro hfirst
      exact hfirst r hfind

end Lookup

def twoInterfaces : Ipv4 ℕ where
  getNetDevice interface := interface
  sourceAddressSelection interface _ := 0x0a000001 + interface
  localAddress device := 0x0a000001 + device

def networkRoutes : NetworkRoutes :=
  ((((NetworkRoutes.setDefaultRoute [] 0x0a0000fe 0 3).addNetworkRouteTo
    0x0a010000 0xffff0000 0x0a0000fd 1 7).addNetworkRouteTo
    0x0a010100 0xffffff00 0x0a0000fc 0 5).addNetworkRouteTo
    0x0a010100 0xffffff00 0x0a0000fb 1 2)

def hostRoutes : NetworkRoutes :=
  (NetworkRoutes.addHostRouteTo [] 0x0a010102 0x0a0000fe 0 5).addHostRouteTo
    0x0a010102 0x0a0000fd 1 1

theorem lookupStatic_networkRoutes :
    (lookupStatic twoInterfaces 0x0a010102 none networkRoutes =
        some ((chooseRoute twoInterfaces 0x0a010102 none networkRoutes).map fun r =>
          routeOf twoInterfaces r.1) ∧
      LongestMatch twoInterfaces 0x0a010102 none networkRoutes
        (chooseRoute twoInterfaces 0x0a010102 none networkRoutes)) ↔
    HostFirst twoInterfaces 0x0a010102 none networkRoutes := by
  have hmask : ∀ r ∈ networkRoutes,
      HasPrefix r.1.destNetworkMask (getPrefixLength r.1.destNetworkMask) := by decide
  exact lookupStatic_longestMatch_iff _ _ _ (fun r hr => ⟨_, hmask r hr⟩) (by decide) (by decide)

/-- The route with metric 5 is returned though there is one with metric 1. -/
theorem lookupStatic_hostRoutes :
    ¬ ∀ (ipv4 : Ipv4 ℕ) (dest : ℕ) (oif : Option ℕ) (routes : NetworkRoutes),
      (∀ r ∈ routes, ∃ p, HasPrefix r.1.destNetworkMask p) → (∀ r ∈ routes, r.2 < 2 ^ 32) →
      isLocalMulticast dest = false →
      lookupStatic ipv4 dest oif routes =
          some ((chooseRoute ipv4 dest oif routes).map fun r => routeOf ipv4 r.1) ∧
        LongestMatch ipv4 dest oif routes (chooseRoute ipv4 dest oif routes) := by
  intro hall
  have hmask : ∀ r ∈ hostRoutes, HasPrefix r.1.destNetworkMask 32 := by decide
  have hchosen : chooseRoute twoInterfaces 0x0a010102 none hostRoutes =
      some (⟨0x0a010102, 0xffffffff, 0x0a0000fe, 0⟩, 5) := by decide
  have hbest := (hall twoInterfaces 0x0a010102 none hostRoutes (fun r hr => ⟨32, hmask r hr⟩)
    (by decide) (by decide)).2
  rw [hchosen] at hbest
  have hleast := hbest.2.2 (⟨0x0a010102, 0xffffffff, 0x0a0000fd, 1⟩, 1) (by decide) (by decide)
    32 32 (by decide) (by decide)
  revert hleast
  decide

end NetGymSim.Internet

import NetGymSim.Lib.Machine
import NetGymSim.Lib.Word

/-!
# `CoDelQueueDisc`

The inner queue disc of a flow queue: a FIFO queue whose packets are dropped or marked when they
are taken from it. Times are nanoseconds; CoDel keeps them in units of 1024 ns in 32 bits.
-/

namespace NetGymSim.TrafficControl
open NetGymSim.Lib

/-- A packet with the DS field of its IP header and the time it was enqueued. -/
structure QueueDiscItem where
  size : ℕ
  dsField : Option ℕ := none
  timeStamp : ℕ := 0
  deriving DecidableEq

/-- `Mark`: packets of an ECN capable transport are marked. -/
def QueueDiscItem.mark (item : QueueDiscItem) : Option QueueDiscItem :=
  match item.dsField with
  | some tos => if tos &&& 0x3 ≠ 0 then some { item with dsField := some (tos ||| 0x3) } else none
  | none => none

/-- The attributes; `maxSize` is in packets. -/
structure CoDelConfig where
  maxSize : ℕ
  minBytes : ℕ := 1500
  interval : ℕ := 100000000
  target : ℕ := 5000000
  useEcn : Bool := false
  useL4s : Bool := false
  ceThreshold : ℕ := 2 ^ 63 - 1

/-- The counters are those of the disc and of its internal queue, which change together. -/
structure CoDel where
  queue : List QueueDiscItem := []
  nPackets : ℕ := 0
  nBytes : ℕ := 0
  count : ℕ := 0
  lastCount : ℕ := 0
  dropping : Bool := false
  recInvSqrt : ℕ := 65535
  firstAboveTime : ℕ := 0
  dropNext : ℕ := 0
  deriving DecidableEq

namespace CoDel

def time2CoDel (t : ℕ) : ℕ := (t >>> 10) % 4294967296

def newtonStep (recInvSqrt count : ℕ) : ℕ :=
  let invsqrt := (recInvSqrt <<< 16) % 4294967296
  let invsqrt2 := (invsqrt * invsqrt) >>> 32
  let val := ((3 <<< 32) + (2 ^ 64 - count * invsqrt2 % 2 ^ 64)) % 2 ^ 64
  let val := val >>> 2
  let val := (val * invsqrt % 2 ^ 64) >>> 31
  (val >>> 16) % 65536

def reciprocalDivide (a r : ℕ) : ℕ := ((a * r) >>> 32) % 4294967296

def controlLaw (t interval recInvSqrt : ℕ) : ℕ :=
  add32 t (reciprocalDivide interval ((recInvSqrt <<< 16) % 4294967296))

/-- `GetInternalQueue(0)->Dequeue()`, with the counters that are told of it. -/
def pop (s : CoDel) : Option QueueDiscItem × CoDel :=
  match s.queue with
  | [] => (none, s)
  | item :: queue =>
      (some item, { s with
        queue := queue
        nPackets := s.nPackets - 1
        nBytes := sub32 s.nBytes item.size })

def enqueue (config : CoDelConfig) (s : CoDel) (item : QueueDiscItem) : Bool × CoDel :=
  if s.nPackets + 1 > config.maxSize then (false, s)
  else (true, { s with
    queue := s.queue ++ [item]
    nPackets := s.nPackets + 1
    nBytes := add32 s.nBytes item.size })

def okToDrop (config : CoDelConfig) (s : CoDel) (now : ℕ) : Option QueueDiscItem → Bool × CoDel
  | none => (false, { s with firstAboveTime := 0 })
  | some item =>
      let sojournTime := time2CoDel (now - item.timeStamp)
      if sojournTime < time2CoDel config.target ∨ s.nBytes < config.minBytes then
        (false, { s with firstAboveTime := 0 })
      else if s.firstAboveTime = 0 then
        (false, { s with firstAboveTime := add32 (time2CoDel now) (time2CoDel config.interval) })
      else (decide (time2CoDel now > s.firstAboveTime), s)

def popNext (config : CoDelConfig) (s : CoDel) (now : ℕ) : Option QueueDiscItem × Bool × CoDel :=
  let (item, s) := s.pop
  let (ok, s) := s.okToDrop config now item
  (item, ok, s)

structure Holding where
  item : Option QueueDiscItem
  isMarked : Bool
  disc : CoDel

/-- A turn of the loop of the dropping state. `OkToDrop` has no packet to drop without one, so
that the loop is left. -/
def dropTurn (config : CoDelConfig) (now : ℕ) (d : Holding) : Turn Holding :=
  match d.item with
  | none => .done d
  | some item =>
      if d.disc.dropping ∧ time2CoDel now ≥ d.disc.dropNext then
        let count := add32 d.disc.count 1
        let s := { d.disc with count, recInvSqrt := newtonStep d.disc.recInvSqrt count }
        let interval := time2CoDel config.interval
        match if config.useEcn then item.mark else none with
        | some item =>
            let dropNext := controlLaw (time2CoDel now) interval s.recInvSqrt
            .done ⟨some item, true, { s with dropNext }⟩
        | none =>
            let (item, ok, s) := s.popNext config now
            if ok then
              let dropNext := controlLaw s.dropNext interval s.recInvSqrt
              .again ⟨item, d.isMarked, { s with dropNext }⟩
            else .again ⟨item, d.isMarked, { s with dropping := false }⟩
      else .done d

def restartCount (config : CoDelConfig) (now : ℕ) (s : CoDel) : ℕ × ℕ :=
  let delta := int32 (sub32 s.count s.lastCount)
  let recently := sub32 (time2CoDel now) s.dropNext < 16 * time2CoDel config.interval % 2 ^ 32
  if 1 < delta ∧ recently then (delta.toNat, newtonStep s.recInvSqrt delta.toNat) else (1, 65535)

def startDropping (config : CoDelConfig) (now : ℕ) (s : CoDel) : CoDel :=
  let restarted := s.restartCount config now
  { s with
    dropping := true
    count := restarted.1
    lastCount := restarted.1
    recInvSqrt := restarted.2
    dropNext := controlLaw (time2CoDel now) (time2CoDel config.interval) restarted.2 }

def dropFirst (config : CoDelConfig) (now : ℕ) (item : QueueDiscItem) (s : CoDel) : Holding :=
  match if config.useEcn then item.mark else none with
  | some item => ⟨some item, true, s.startDropping config now⟩
  | none =>
      let (item, _, s) := s.popNext config now
      ⟨item, false, s.startDropping config now⟩

/-- Behind the label `end`, where the packet is asked for its time; there may be none. -/
def finish (config : CoDelConfig) (now : ℕ) (d : Holding) :
    Option (Option QueueDiscItem × CoDel) :=
  d.item.map fun item =>
    let ldelay := time2CoDel (now - item.timeStamp)
    if !d.isMarked ∧ !config.useL4s ∧ config.useEcn ∧ ldelay > time2CoDel config.ceThreshold then
      (some (item.mark.getD item), d.disc)
    else (some item, d.disc)

def l4sItem (config : CoDelConfig) (now : ℕ) (item : QueueDiscItem) : Option QueueDiscItem :=
  item.dsField.bind fun tos =>
    if config.useL4s ∧ (tos &&& 0x3 = 1 ∨ tos &&& 0x3 = 3) then
      if time2CoDel (now - item.timeStamp) > time2CoDel config.ceThreshold then
        some (item.mark.getD item)
      else some item
    else none

/-- Nothing comes of it when a packet that is not there is asked for its time. -/
def doDequeue (config : CoDelConfig) (s : CoDel) (now : ℕ) :
    Option (Option QueueDiscItem × CoDel) :=
  match s.pop with
  | (none, s) => some (none, { s with dropping := false })
  | (some item, s) =>
      match l4sItem config now item with
      | some item => some (some item, s)
      | none =>
          let (ok, s) := s.okToDrop config now (some item)
          if s.dropping then
            if ok then
              finish config now (loop (dropTurn config now) (s.queue.length + 2) ⟨item, false, s⟩)
            else finish config now ⟨item, false, { s with dropping := false }⟩
          else if ok then finish config now (s.dropFirst config now item)
          else finish config now ⟨item, false, s⟩

def totalSize (queue : List QueueDiscItem) : ℕ := (queue.map QueueDiscItem.size).sum

structure Sound (s : CoDel) : Prop where
  packets : s.nPackets = s.queue.length
  bytes : s.nBytes = totalSize s.queue % 4294967296

/-- The packet was taken from the queue, behind others that were dropped; a mark leaves its
size. -/
structure Took (s : CoDel) (item : QueueDiscItem) (s' : CoDel) : Prop where
  queue : ∃ dropped old, s.queue = dropped ++ old :: s'.queue ∧ item.size = old.size
  sound : s'.Sound

variable {config : CoDelConfig} {s s' : CoDel} {item : QueueDiscItem} {now : ℕ} {d : Holding}

theorem Sound.congr (hs : s.Sound) (hqueue : s'.queue = s.queue)
    (hpackets : s'.nPackets = s.nPackets) (hbytes : s'.nBytes = s.nBytes) : s'.Sound where
  packets := by rw [hqueue, hpackets, hs.packets]
  bytes := by rw [hqueue, hbytes, hs.bytes]

theorem Took.congr {t : CoDel} (h : s.Took item s') (hqueue : t.queue = s'.queue)
    (hpackets : t.nPackets = s'.nPackets) (hbytes : t.nBytes = s'.nBytes) : s.Took item t where
  queue := by
    rw [hqueue]
    exact h.queue
  sound := h.sound.congr hqueue hpackets hbytes

theorem totalSize_cons (item : QueueDiscItem) (queue : List QueueDiscItem) :
    totalSize (item :: queue) = item.size + totalSize queue := List.sum_cons

theorem sub32_add_mod (a b : ℕ) : sub32 ((a + b) % 4294967296) a = b % 4294967296 := by
  unfold sub32
  omega

theorem pop_empty (hqueue : s.queue = []) : s.pop = (none, s) := by
  rw [pop, hqueue]

theorem pop_cons {queue : List QueueDiscItem} (hs : s.Sound) (hqueue : s.queue = item :: queue) :
    ∃ s', s.pop = (some item, s') ∧ s'.queue = queue ∧ s'.Sound ∧ s'.dropping = s.dropping := by
  refine ⟨{ s with queue, nPackets := s.nPackets - 1, nBytes := sub32 s.nBytes item.size }, ?_,
    rfl, ⟨?_, ?_⟩, rfl⟩
  · rw [pop, hqueue]
  · dsimp only
    rw [hs.packets, hqueue, List.length_cons, Nat.add_sub_cancel]
  · dsimp only
    rw [hs.bytes, hqueue, totalSize_cons, sub32_add_mod]

theorem enqueue_spec (hs : s.Sound) (config : CoDelConfig) (item : QueueDiscItem) :
    (s.enqueue config item).2.Sound ∧ (s.enqueue config item).2.queue =
      if (s.enqueue config item).1 then s.queue ++ [item] else s.queue := by
  by_cases hfull : s.nPackets + 1 > config.maxSize
  · rw [enqueue, if_pos hfull]
    exact ⟨hs, rfl⟩
  · rw [enqueue, if_neg hfull]
    refine ⟨⟨?_, ?_⟩, rfl⟩
    · dsimp only
      rw [hs.packets, List.length_append, List.length_singleton]
    · dsimp only
      rw [hs.bytes, totalSize, totalSize, List.map_append, List.sum_append, List.map_singleton,
        List.sum_singleton, add32, Nat.mod_add_mod]

theorem okToDrop_spec (config : CoDelConfig) (s : CoDel) (now : ℕ) (item : Option QueueDiscItem) :
    (s.okToDrop config now item).2.queue = s.queue ∧
      (s.okToDrop config now item).2.nPackets = s.nPackets ∧
      (s.okToDrop config now item).2.nBytes = s.nBytes ∧
      (s.okToDrop config now item).2.dropping = s.dropping ∧
      ((s.okToDrop config now item).1 = true → config.minBytes ≤ s.nBytes) := by
  cases item with
  | none => exact ⟨rfl, rfl, rfl, rfl, nofun⟩
  | some item =>
    unfold okToDrop
    dsimp only
    split_ifs with hbelow hfirst
    · exact ⟨rfl, rfl, rfl, rfl, nofun⟩
    · exact ⟨rfl, rfl, rfl, rfl, nofun⟩
    · exact ⟨rfl, rfl, rfl, rfl, fun _ => Nat.not_lt.mp (not_or.mp hbelow).2⟩

theorem mark_size {marked : QueueDiscItem} (h : item.mark = some marked) :
    marked.size = item.size := by
  unfold QueueDiscItem.mark at h
  cases hfield : item.dsField with
  | none =>
    rw [hfield] at h
    cases h
  | some tos =>
    rw [hfield] at h
    dsimp only at h
    split_ifs at h
    cases h
    rfl

theorem mark_getD_size (item : QueueDiscItem) : (item.mark.getD item).size = item.size := by
  cases h : item.mark with
  | none => rfl
  | some marked => exact mark_size h

theorem l4sItem_size {other : QueueDiscItem} (h : l4sItem config now item = some other) :
    other.size = item.size := by
  unfold l4sItem at h
  obtain ⟨tos, -, h⟩ := Option.bind_eq_some_iff.mp h
  split_ifs at h
  · cases h
    exact mark_getD_size item
  · cases h
    rfl

structure Holds (s : CoDel) (d : Holding) : Prop where
  took : ∃ item, d.item = some item ∧ s.Took item d.disc
  left : d.disc.dropping = true → d.disc.queue ≠ []

theorem queue_ne_nil (hs : s.Sound) (hmin : 0 < config.minBytes)
    (h : config.minBytes ≤ s.nBytes) : s.queue ≠ [] := by
  intro hnil
  have hzero : s.nBytes = 0 := by rw [hs.bytes, hnil]; rfl
  omega

theorem Took.next (h : s.Took item s') (hne : s'.queue ≠ []) (hmin : 0 < config.minBytes)
    (now : ℕ) :
    ∃ next ok t, s'.popNext config now = (some next, ok, t) ∧ s.Took next t ∧
      t.queue.length < s'.queue.length ∧ t.dropping = s'.dropping ∧
      (ok = true → t.queue ≠ []) := by
  obtain ⟨next, queue, hqueue⟩ := List.exists_cons_of_ne_nil hne
  obtain ⟨t, hpop, htqueue, hsound, hdropping⟩ := pop_cons h.sound hqueue
  obtain ⟨dropped, old, hall, -⟩ := h.queue
  obtain ⟨hokqueue, hokpackets, hokbytes, hokdropping, hok⟩ :=
    okToDrop_spec config t now (some next)
  have htook : s.Took next t := by
    refine ⟨⟨dropped ++ [old], next, ?_, rfl⟩, hsound⟩
    rw [hall, hqueue, htqueue, List.append_assoc, List.singleton_append]
  refine ⟨next, (t.okToDrop config now (some next)).1, (t.okToDrop config now (some next)).2, ?_,
    htook.congr hokqueue hokpackets hokbytes, ?_, hokdropping.trans hdropping, ?_⟩
  · rw [popNext, hpop]
  · rw [hokqueue, htqueue, hqueue, List.length_cons]
    exact Nat.lt_succ_self _
  · intro h
    rw [hokqueue]
    exact queue_ne_nil hsound hmin (hok h)

theorem Took.mark {marked : QueueDiscItem} (h : s.Took item s') (hsize : marked.size = item.size) :
    s.Took marked s' := by
  obtain ⟨dropped, old, hall, hold⟩ := h.queue
  exact ⟨⟨dropped, old, hall, hsize.trans hold⟩, h.sound⟩

theorem Took.sizes {P : ℕ → Prop} (h : s.Took item s') (hsizes : ∀ item ∈ s.queue, P item.size) :
    P item.size ∧ ∀ item ∈ s'.queue, P item.size := by
  obtain ⟨dropped, old, hall, hsize⟩ := h.queue
  rw [hall] at hsizes
  rw [hsize]
  refine ⟨hsizes old ?_, fun other hother => hsizes other ?_⟩
  · exact List.mem_append_right _ List.mem_cons_self
  · exact List.mem_append_right _ (List.mem_cons_of_mem old hother)

theorem mark_ecn_size {marked : QueueDiscItem}
    (h : (if config.useEcn = true then item.mark else none) = some marked) :
    marked.size = item.size := by
  split_ifs at h
  exact mark_size h

theorem dropTurn_holds (hmin : 0 < config.minBytes) (now : ℕ) (hd : s.Holds d) :
    match dropTurn config now d with
    | .again d' => s.Holds d' ∧ d'.disc.queue.length < d.disc.queue.length
    | .done d' => s.Holds d' := by
  obtain ⟨⟨item, hitem, htook⟩, hleft⟩ := hd
  unfold CoDel.dropTurn
  rw [hitem]
  dsimp only
  by_cases hturn : d.disc.dropping = true ∧ time2CoDel now ≥ d.disc.dropNext
  · rw [if_pos hturn]
    cases hmark : if config.useEcn = true then item.mark else none with
    | some marked =>
      dsimp only
      refine ⟨⟨marked, rfl, ?_⟩, fun _ => hleft hturn.1⟩
      have hmarked := htook.mark (mark_ecn_size hmark)
      exact hmarked.congr rfl rfl rfl
    | none =>
      have hcounted : s.Took item { d.disc with
          count := add32 d.disc.count 1
          recInvSqrt := newtonStep d.disc.recInvSqrt (add32 d.disc.count 1) } :=
        htook.congr rfl rfl rfl
      obtain ⟨next, ok, t, hnext, hnextTook, hlt, -, hok⟩ :=
        hcounted.next (hleft hturn.1) hmin now
      dsimp only
      rw [hnext]
      cases ok with
      | true => exact ⟨⟨⟨next, rfl, hnextTook.congr rfl rfl rfl⟩, fun _ => hok rfl⟩, hlt⟩
      | false => exact ⟨⟨⟨next, rfl, hnextTook.congr rfl rfl rfl⟩, nofun⟩, hlt⟩
  · rw [if_neg hturn]
    exact ⟨⟨item, hitem, htook⟩, hleft⟩

theorem dropLoop_holds (hmin : 0 < config.minBytes) (now : ℕ) (hd : s.Holds d) {fuel : ℕ}
    (hfuel : d.disc.queue.length < fuel) : s.Holds (loop (dropTurn config now) fuel d) := by
  apply loop_spec (P := fun d => s.Holds d) (Q := fun d => s.Holds d)
    (fun d => d.disc.queue.length) _ _ fuel hd hfuel
  · intro d d' hd hturn
    have hspec := dropTurn_holds hmin now hd
    rw [hturn] at hspec
    exact hspec
  · intro d d' hd hturn
    have hspec := dropTurn_holds hmin now hd
    rw [hturn] at hspec
    exact hspec

theorem startDropping_took (h : s.Took item s') (config : CoDelConfig) (now : ℕ) :
    s.Took item (s'.startDropping config now) := by
  unfold startDropping
  apply h.congr
  · dsimp only
  · dsimp only
  · dsimp only

theorem finish_spec {item : QueueDiscItem} (hitem : d.item = some item)
    (htook : s.Took item d.disc) (config : CoDelConfig) (now : ℕ) :
    ∃ item s', finish config now d = some (some item, s') ∧ s.Took item s' := by
  unfold finish
  rw [hitem, Option.map_some]
  dsimp only
  split_ifs
  · exact ⟨_, _, rfl, htook.mark (mark_getD_size item)⟩
  · exact ⟨_, _, rfl, htook⟩

theorem dropFirst_spec (hmin : 0 < config.minBytes) (h : s.Took item s') (hne : s'.queue ≠ [])
    (now : ℕ) :
    ∃ next, (s'.dropFirst config now item).item = some next ∧
      s.Took next (s'.dropFirst config now item).disc := by
  unfold dropFirst
  cases hmark : if config.useEcn = true then item.mark else none with
  | some marked =>
    exact ⟨marked, rfl, startDropping_took (h.mark (mark_ecn_size hmark)) config now⟩
  | none =>
    obtain ⟨next, ok, t, hnext, htook, -⟩ := h.next hne hmin now
    dsimp only
    rw [hnext]
    exact ⟨next, rfl, startDropping_took htook config now⟩

theorem doDequeue_spec (hs : s.Sound) (hmin : 0 < config.minBytes) (now : ℕ) :
    (s.queue = [] ∧ ∃ s', s.doDequeue config now = some (none, s') ∧ s'.queue = [] ∧ s'.Sound) ∨
      ∃ item s', s.doDequeue config now = some (some item, s') ∧ s.Took item s' := by
  unfold doDequeue
  cases hqueue : s.queue with
  | nil =>
    rw [pop_empty hqueue]
    exact .inl ⟨rfl, _, rfl, hqueue, hs.congr rfl rfl rfl⟩
  | cons item queue =>
    right
    obtain ⟨t, hpop, htqueue, hsound, -⟩ := pop_cons hs hqueue
    have htook : s.Took item t := ⟨⟨[], item, by rw [hqueue, htqueue]; rfl, rfl⟩, hsound⟩
    rw [hpop]
    dsimp only
    cases hl4s : l4sItem config now item with
    | some marked => exact ⟨marked, t, rfl, htook.mark (l4sItem_size hl4s)⟩
    | none =>
      obtain ⟨hokqueue, hokpackets, hokbytes, -, hok⟩ := okToDrop_spec config t now (some item)
      have hjudged := htook.congr hokqueue hokpackets hokbytes
      have hleft : (t.okToDrop config now (some item)).1 = true →
          (t.okToDrop config now (some item)).2.queue ≠ [] := by
        intro h
        rw [hokqueue]
        exact queue_ne_nil hsound hmin (hok h)
      dsimp only
      split_ifs with hdropping hdrop hdrop
      · have hholds : s.Holds ⟨some item, false, (t.okToDrop config now (some item)).2⟩ :=
          ⟨⟨item, rfl, hjudged⟩, fun _ => hleft hdrop⟩
        have hlast := dropLoop_holds hmin now hholds (Nat.lt_add_of_pos_right (Nat.succ_pos 1))
        obtain ⟨last, hitem, hlastTook⟩ := hlast.took
        exact finish_spec hitem hlastTook config now
      · exact finish_spec rfl (hjudged.congr rfl rfl rfl) config now
      · obtain ⟨next, hitem, hnext⟩ := dropFirst_spec hmin hjudged (hleft hdrop) now
        exact finish_spec hitem hnext config now
      · exact finish_spec rfl hjudged config now

end CoDel
end NetGymSim.TrafficControl

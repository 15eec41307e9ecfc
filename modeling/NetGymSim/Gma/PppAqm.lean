import Mathlib.Data.List.FinRange
import Mathlib.Data.List.Infix
import NetGymSim.Gma.PppQueueDisc
import NetGymSim.Lib.Machine

/-!
# Byte counts of the PppAqmV2 queue disc

`m_bytesPerPpp` counts the bytes that wait with each priority: an admitted packet is added, and a
packet that `DoDequeue` takes from the internal queue is subtracted whether it is dropped or not.
The counts are `uint32_t`. They follow the queue modulo 2^32, and exactly while the bytes of the
priority fit.
-/

namespace NetGymSim.Gma
open NetGymSim.Lib

/-- `size` is that of the packet and `itemSize` that of the item with its header; `tag` is the
priority, if the packet has a tag, and the time stamp is in milliseconds. -/
structure AqmItem where
  size : ℕ
  itemSize : ℕ
  tag : Option (Fin 16)
  timeStamp : ℕ
deriving DecidableEq

/-- The maximum size, and what is computed with floating point numbers: `ewma` is the mean delay
after another delay, `dropDeficit` the bytes to be dropped for a mean delay and the bytes in the
internal queue. -/
structure PppAqmConfig where
  unit : QueueSizeUnit
  maxSize : ℕ
  ewma : ℕ → ℕ → ℕ
  dropDeficit : ℕ → ℕ → ℕ

structure PppAqm where
  queue : List AqmItem
  bytesPerPpp : Fin 16 → Counter
  meanDelay : ℕ

namespace PppAqm

def delayLimit : ℕ := 100

def dropHighestPriority : Bool := true

def start : PppAqm := ⟨[], fun _ => .exactly 0, 4294967295⟩

def lowPriorityBytes (bytesPerPpp : Fin 16 → Counter) (ppp : Fin 16) : ℕ :=
  ((List.finRange 16).filter (ppp < ·)).foldl (fun sum p => add32 sum (bytesPerPpp p).value) 0

def exceeds (bytesPerPpp : Fin 16 → Counter) (ppp : Fin 16) (size dropDeficit : ℕ) : Bool :=
  0 < ppp ∧ add32 (lowPriorityBytes bytesPerPpp ppp) size < dropDeficit

def setBytes (bytesPerPpp : Fin 16 → Counter) (ppp : Fin 16) (bytes : Counter) :
    Fin 16 → Counter :=
  fun p => if p = ppp then bytes else bytesPerPpp p

def firstDelay (s : PppAqm) (now : ℕ) : ℕ :=
  match s.queue with
  | [] => 4294967295
  | first :: _ => sub32 now first.timeStamp

def doEnqueue (config : PppAqmConfig) (s : PppAqm) (now : ℕ) (item : AqmItem) (accepted : Bool) :
    PppAqm :=
  if config.maxSize < config.unit.sizeWith (s.queue.map AqmItem.itemSize) item.itemSize then s
  else
    let item := { item with timeStamp := now }
    let queue := if accepted then s.queue ++ [item] else s.queue
    match item.tag with
    | none => { s with queue := queue }
    | some ppp =>
        let dropDeficit := 0
        if s.firstDelay now ≠ 4294967295 && exceeds s.bytesPerPpp ppp item.size dropDeficit then s
        else
          { s with
            queue := queue
            bytesPerPpp := setBytes s.bytesPerPpp ppp ((s.bytesPerPpp ppp).add item.size) }

/-- The loop of `DoDequeue` from these counts and mean delay, with the packet it returns. -/
def dequeueLoop (config : PppAqmConfig) (now : ℕ) :
    (Fin 16 → Counter) → ℕ → List AqmItem → Option AqmItem × PppAqm
  | bytesPerPpp, meanDelay, [] => (none, ⟨[], bytesPerPpp, meanDelay⟩)
  | bytesPerPpp, meanDelay, item :: queue =>
      match item.tag with
      | none => (some item, ⟨queue, bytesPerPpp, meanDelay⟩)
      | some ppp =>
          let bytesPerPpp := setBytes bytesPerPpp ppp ((bytesPerPpp ppp).sub item.size)
          let owdMs := sub32 now item.timeStamp
          if delayLimit < owdMs && dropHighestPriority then
            dequeueLoop config now bytesPerPpp meanDelay queue
          else
            let meanDelay := if meanDelay = 4294967295 then owdMs else config.ewma owdMs meanDelay
            let nBytes := (queue.map AqmItem.itemSize).sum % 4294967296
            if exceeds bytesPerPpp ppp item.size (config.dropDeficit meanDelay nBytes) then
              dequeueLoop config now bytesPerPpp meanDelay queue
            else (some item, ⟨queue, bytesPerPpp, meanDelay⟩)

def doDequeue (config : PppAqmConfig) (s : PppAqm) (now : ℕ) : Option AqmItem × PppAqm :=
  dequeueLoop config now s.bytesPerPpp s.meanDelay s.queue

def totalBytes (queue : List AqmItem) (ppp : Fin 16) : ℕ :=
  ((queue.filter fun item => item.tag = some ppp).map AqmItem.size).sum

end PppAqm

inductive PppAqmEvent
  | enqueue (now : ℕ) (item : AqmItem)
  | dequeue (now : ℕ)

namespace PppAqm

def machine (config : PppAqmConfig) : Machine PppAqm PppAqmEvent where
  enabled _ _ := True
  next s
    | .enqueue now item => s.doEnqueue config now item true
    | .dequeue now => (s.doDequeue config now).2

variable {config : PppAqmConfig} {queue : List AqmItem} {bytesPerPpp : Fin 16 → Counter}
  {s : PppAqm} {ppp : Fin 16}

def Follows (bytesPerPpp : Fin 16 → Counter) (queue : List AqmItem) : Prop :=
  ∀ p, (bytesPerPpp p).value = totalBytes queue p % 4294967296

structure Exact (ppp : Fin 16) (bytesPerPpp : Fin 16 → Counter) (queue : List AqmItem) :
    Prop where
  count : bytesPerPpp ppp = .exactly (totalBytes queue ppp)
  fits : totalBytes queue ppp < 4294967296

theorem totalBytes_cons (item : AqmItem) (queue : List AqmItem) (p : Fin 16) :
    totalBytes (item :: queue) p =
      (if item.tag = some p then item.size else 0) + totalBytes queue p := by
  unfold totalBytes
  by_cases htag : item.tag = some p
  · rw [List.filter_cons_of_pos (by simpa using htag), List.map_cons, List.sum_cons, if_pos htag]
  · rw [List.filter_cons_of_neg (by simpa using htag), if_neg htag, Nat.zero_add]

theorem totalBytes_snoc (queue : List AqmItem) (item : AqmItem) (p : Fin 16) :
    totalBytes (queue ++ [item]) p =
      totalBytes queue p + if item.tag = some p then item.size else 0 := by
  induction queue with
  | nil => rw [List.nil_append, totalBytes_cons, Nat.add_comm]
  | cons first queue ih =>
    rw [List.cons_append, totalBytes_cons, totalBytes_cons, ih, Nat.add_assoc]

@[simp] theorem setBytes_same (bytes : Counter) : setBytes bytesPerPpp ppp bytes ppp = bytes :=
  if_pos rfl

theorem setBytes_other (bytes : Counter) {p : Fin 16} (hp : p ≠ ppp) :
    setBytes bytesPerPpp ppp bytes p = bytesPerPpp p :=
  if_neg hp

section Items
variable {item : AqmItem}

theorem totalBytes_cons_same (htag : item.tag = some ppp) :
    totalBytes (item :: queue) ppp = item.size + totalBytes queue ppp := by
  rw [totalBytes_cons, if_pos htag]

theorem totalBytes_cons_other {p : Fin 16} (htag : item.tag = some ppp) (hp : p ≠ ppp) :
    totalBytes (item :: queue) p = totalBytes queue p := by
  rw [totalBytes_cons, htag, if_neg fun heq => hp (Option.some.inj heq).symm, Nat.zero_add]

theorem totalBytes_cons_none (htag : item.tag = none) (p : Fin 16) :
    totalBytes (item :: queue) p = totalBytes queue p := by
  rw [totalBytes_cons, htag, if_neg nofun, Nat.zero_add]

theorem totalBytes_snoc_same (htag : item.tag = some ppp) :
    totalBytes (queue ++ [item]) ppp = totalBytes queue ppp + item.size := by
  rw [totalBytes_snoc, if_pos htag]

theorem totalBytes_snoc_other {p : Fin 16} (htag : item.tag = some ppp) (hp : p ≠ ppp) :
    totalBytes (queue ++ [item]) p = totalBytes queue p := by
  rw [totalBytes_snoc, htag, if_neg fun heq => hp (Option.some.inj heq).symm, Nat.add_zero]

theorem totalBytes_snoc_none (htag : item.tag = none) (p : Fin 16) :
    totalBytes (queue ++ [item]) p = totalBytes queue p := by
  rw [totalBytes_snoc, htag, if_neg nofun, Nat.add_zero]

theorem Follows.add (h : Follows bytesPerPpp queue) (htag : item.tag = some ppp) :
    Follows (setBytes bytesPerPpp ppp ((bytesPerPpp ppp).add item.size)) (queue ++ [item]) := by
  intro p
  by_cases hp : p = ppp
  · rw [hp, setBytes_same, totalBytes_snoc_same htag]
    have hvalue := h ppp
    simp only [Counter.add, add32]
    omega
  · rw [setBytes_other _ hp, totalBytes_snoc_other htag hp, h p]

theorem Follows.untagged (h : Follows bytesPerPpp queue) (htag : item.tag = none) :
    Follows bytesPerPpp (queue ++ [item]) := by
  intro p
  rw [totalBytes_snoc_none htag, h p]

theorem Follows.sub (h : Follows bytesPerPpp (item :: queue)) (htag : item.tag = some ppp) :
    Follows (setBytes bytesPerPpp ppp ((bytesPerPpp ppp).sub item.size)) queue := by
  intro p
  have hvalue := h p
  by_cases hp : p = ppp
  · rw [hp, totalBytes_cons_same htag] at hvalue
    rw [hp, setBytes_same]
    simp only [Counter.sub, sub32]
    omega
  · rw [setBytes_other _ hp, hvalue, totalBytes_cons_other htag hp]

variable {p : Fin 16}

theorem Exact.add (h : Exact p bytesPerPpp queue) (htag : item.tag = some ppp)
    (hfits : totalBytes (queue ++ [item]) p < 4294967296) :
    Exact p (setBytes bytesPerPpp ppp ((bytesPerPpp ppp).add item.size)) (queue ++ [item]) := by
  refine ⟨?_, hfits⟩
  by_cases hp : p = ppp
  · subst hp
    rw [totalBytes_snoc_same htag] at hfits ⊢
    rw [setBytes_same, h.count, Counter.exactly_add hfits]
  · rw [setBytes_other _ hp, totalBytes_snoc_other htag hp, h.count]

theorem Exact.untagged (h : Exact p bytesPerPpp queue) (htag : item.tag = none) :
    Exact p bytesPerPpp (queue ++ [item]) := by
  have htotal : totalBytes (queue ++ [item]) p = totalBytes queue p := totalBytes_snoc_none htag p
  exact ⟨by rw [h.count, htotal], htotal ▸ h.fits⟩

theorem Exact.sub (h : Exact p bytesPerPpp (item :: queue)) (htag : item.tag = some ppp) :
    Exact p (setBytes bytesPerPpp ppp ((bytesPerPpp ppp).sub item.size)) queue := by
  obtain ⟨hcount, hfits⟩ := h
  by_cases hp : p = ppp
  · subst hp
    rw [totalBytes_cons_same htag] at hcount hfits
    refine ⟨?_, by omega⟩
    rw [setBytes_same, hcount, Counter.exactly_sub hfits (Nat.le_add_right _ _),
      Nat.add_sub_cancel_left]
  · rw [totalBytes_cons_other htag hp] at hcount hfits
    exact ⟨by rw [setBytes_other _ hp, hcount], hfits⟩

end Items

theorem doDequeue_kept {P : (Fin 16 → Counter) → List AqmItem → Prop} (config : PppAqmConfig)
    (now : ℕ)
    (huntagged : ∀ bytesPerPpp item queue, item.tag = none →
      P bytesPerPpp (item :: queue) → P bytesPerPpp queue)
    (htagged : ∀ bytesPerPpp item queue ppp, item.tag = some ppp → P bytesPerPpp (item :: queue) →
      P (setBytes bytesPerPpp ppp ((bytesPerPpp ppp).sub item.size)) queue)
    (hs : P s.bytesPerPpp s.queue) :
    P (s.doDequeue config now).2.bytesPerPpp (s.doDequeue config now).2.queue := by
  obtain ⟨queue, bytesPerPpp, meanDelay⟩ := s
  unfold doDequeue
  induction queue generalizing bytesPerPpp meanDelay with
  | nil => exact hs
  | cons item queue ih =>
    unfold dequeueLoop
    cases htag : item.tag with
    | none => exact huntagged _ _ _ htag hs
    | some ppp =>
      have hnext := htagged _ _ _ ppp htag hs
      dsimp only
      split_ifs
      · exact ih _ _ hnext
      · exact ih _ _ hnext
      · exact hnext
      · exact ih _ _ hnext
      · exact hnext

theorem doEnqueue_cases (config : PppAqmConfig) (s : PppAqm) (now : ℕ) (item : AqmItem) :
    s.doEnqueue config now item true = s ∨
      item.tag = none ∧ s.doEnqueue config now item true =
        { s with queue := s.queue ++ [{ item with timeStamp := now }] } ∨
      ∃ ppp, item.tag = some ppp ∧ s.doEnqueue config now item true =
        { s with
          queue := s.queue ++ [{ item with timeStamp := now }]
          bytesPerPpp := setBytes s.bytesPerPpp ppp ((s.bytesPerPpp ppp).add item.size) } := by
  by_cases hfull :
      config.maxSize < config.unit.sizeWith (s.queue.map AqmItem.itemSize) item.itemSize
  · exact .inl (if_pos hfull)
  · right
    cases htag : item.tag with
    | none => exact .inl ⟨rfl, by simp [doEnqueue, hfull, htag]⟩
    | some ppp => exact .inr ⟨ppp, rfl, by simp [doEnqueue, hfull, htag, exceeds]⟩

theorem stamped_tag (item : AqmItem) (now : ℕ) :
    item.tag = ({ item with timeStamp := now } : AqmItem).tag := rfl

theorem next_follows (hs : Follows s.bytesPerPpp s.queue) (e : PppAqmEvent) :
    Follows ((machine config).next s e).bytesPerPpp ((machine config).next s e).queue := by
  cases e with
  | enqueue now item =>
    show Follows (s.doEnqueue config now item true).bytesPerPpp
      (s.doEnqueue config now item true).queue
    obtain hsame | ⟨htag, hnext⟩ | ⟨ppp, htag, hnext⟩ := doEnqueue_cases config s now item
    · rw [hsame]
      exact hs
    · rw [hnext]
      exact hs.untagged (stamped_tag item now ▸ htag)
    · rw [hnext]
      exact hs.add (stamped_tag item now ▸ htag)
  | dequeue now =>
    refine doDequeue_kept config now (fun bytesPerPpp item queue htag h p => ?_)
      (fun bytesPerPpp item queue ppp htag h => h.sub htag) hs
    rw [h p, totalBytes_cons_none htag]

theorem next_exact {p : Fin 16} (hs : Exact p s.bytesPerPpp s.queue) (e : PppAqmEvent)
    (hfits : totalBytes ((machine config).next s e).queue p < 4294967296) :
    Exact p ((machine config).next s e).bytesPerPpp ((machine config).next s e).queue := by
  cases e with
  | enqueue now item =>
    replace hfits : totalBytes (s.doEnqueue config now item true).queue p < 4294967296 := hfits
    show Exact p (s.doEnqueue config now item true).bytesPerPpp
      (s.doEnqueue config now item true).queue
    obtain hsame | ⟨htag, hnext⟩ | ⟨ppp, htag, hnext⟩ := doEnqueue_cases config s now item
    · rw [hsame]
      exact hs
    · rw [hnext] at hfits ⊢
      exact hs.untagged (stamped_tag item now ▸ htag)
    · rw [hnext] at hfits ⊢
      exact hs.add (stamped_tag item now ▸ htag) hfits
  | dequeue now =>
    refine doDequeue_kept config now (fun bytesPerPpp item queue htag h => ?_)
      (fun bytesPerPpp item queue ppp htag h => h.sub htag) hs
    have htotal : totalBytes (item :: queue) p = totalBytes queue p := totalBytes_cons_none htag p
    exact ⟨by rw [h.count, htotal], htotal ▸ h.fits⟩

theorem exec_follows (config : PppAqmConfig) (es : List PppAqmEvent) :
    Follows ((machine config).exec start es).bytesPerPpp
      ((machine config).exec start es).queue := by
  have hpermits : (machine config).Permits start es :=
    Machine.Permits.of_free (fun _ _ => trivial) start es
  exact hpermits.reaches.invariant (P := fun s => Follows s.bytesPerPpp s.queue) (fun _ => rfl)
    (fun s e hs _ => next_follows hs e)

theorem exec_exact {p : Fin 16} {es : List PppAqmEvent}
    (hfits : ∀ done, done <+: es →
      totalBytes ((machine config).exec start done).queue p < 4294967296) :
    Exact p ((machine config).exec start es).bytesPerPpp
      ((machine config).exec start es).queue := by
  induction es using List.reverseRecOn with
  | nil => exact ⟨rfl, hfits [] List.nil_prefix⟩
  | append_singleton es e ih =>
    have hlast := hfits (es ++ [e]) (List.prefix_refl _)
    have hbefore := ih fun done hdone => hfits done (hdone.trans (List.prefix_append es [e]))
    rw [Machine.exec_append] at hlast ⊢
    exact next_exact hbefore e hlast

/-- In every run each count is the total of its packets in the internal queue modulo 2^32, and
while that total has never reached 2^32 it is the total itself and nothing has underflowed. -/
theorem bytesPerPpp_runs (config : PppAqmConfig) (es : List PppAqmEvent) (p : Fin 16) :
    let s := (machine config).exec start es
    (s.bytesPerPpp p).value = totalBytes s.queue p % 4294967296 ∧
      ((∀ done, done <+: es →
          totalBytes ((machine config).exec start done).queue p < 4294967296) →
        (s.bytesPerPpp p).value = totalBytes s.queue p ∧ (s.bytesPerPpp p).underflow = false) := by
  intro s
  refine ⟨exec_follows config es p, fun hfits => ?_⟩
  have hexact : Exact p s.bytesPerPpp s.queue := exec_exact hfits
  rw [hexact.count]
  exact ⟨rfl, rfl⟩

/-- At most 100000 packets, and no packet is dropped to save delay. -/
def manyPackets : PppAqmConfig := ⟨.packets, 100000, fun owdMs _ => owdMs, fun _ _ => 0⟩

def largestItem : AqmItem := ⟨65515, 65535, some 0, 0⟩

theorem exec_replicate {n : ℕ} (hn : n ≤ 100000) :
    ((machine manyPackets).exec start (List.replicate n (.enqueue 0 largestItem))).queue =
      List.replicate n largestItem := by
  induction n with
  | zero => rfl
  | succ n ih =>
    have hqueue := ih (Nat.le_of_succ_le hn)
    rw [List.replicate_succ', Machine.exec_append, List.replicate_succ']
    generalize (machine manyPackets).exec start (List.replicate n (.enqueue 0 largestItem)) = s
      at hqueue
    show (s.doEnqueue manyPackets 0 largestItem true).queue = _
    have hsize : ¬ manyPackets.maxSize <
        manyPackets.unit.sizeWith (s.queue.map AqmItem.itemSize) largestItem.itemSize := by
      rw [hqueue, List.map_replicate]
      simp only [manyPackets, QueueSizeUnit.sizeWith, List.length_replicate, add32]
      omega
    rw [doEnqueue, if_neg hsize, ← hqueue]
    simp [largestItem, exceeds]

theorem totalBytes_replicate (n : ℕ) :
    totalBytes (List.replicate n largestItem) 0 = n * 65515 := by
  simp [totalBytes, largestItem]

theorem bytesPerPpp_twoPackets :
    let s := (machine manyPackets).exec start
      [.enqueue 0 largestItem, .enqueue 3 largestItem, .dequeue 5]
    (s.bytesPerPpp 0).value = 65515 ∧ (s.bytesPerPpp 0).underflow = false := by
  have hfits : ∀ done ∈ List.inits [.enqueue 0 largestItem, .enqueue 3 largestItem, .dequeue 5],
      totalBytes ((machine manyPackets).exec start done).queue 0 < 4294967296 := by
    decide
  exact (bytesPerPpp_runs manyPackets _ 0).2 fun done hdone =>
    hfits done ((List.mem_inits _ _).mpr hdone)

/-- The bytes of 66000 packets that wait with priority 0 no longer fit. -/
theorem bytesPerPpp_wraps :
    ¬ ∀ (config : PppAqmConfig) (es : List PppAqmEvent) (p : Fin 16),
      let s := (machine config).exec start es
      (s.bytesPerPpp p).value = totalBytes s.queue p ∧ (s.bytesPerPpp p).underflow = false := by
  intro hall
  have hcount := (hall manyPackets (List.replicate 66000 (.enqueue 0 largestItem)) 0).1
  have hfollows := exec_follows manyPackets (List.replicate 66000 (.enqueue 0 largestItem)) 0
  rw [exec_replicate (by decide), totalBytes_replicate] at hcount hfollows
  omega

end PppAqm
end NetGymSim.Gma

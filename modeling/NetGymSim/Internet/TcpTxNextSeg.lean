import NetGymSim.Internet.TcpTxCounterRuns

/-!
# The next segment to send

`NextSeg` goes once over the sent list. `rules` says what it is for: the first lost item, else new
data that the receiver has room for, else in recovery the first item that may be sent again. The
end of the range is a cap, which the data may not reach.
-/

namespace NetGymSim.Internet.TcpTxBuffer
open Lib Network
variable {α : Type*} {items : List (TcpTxItem α)} {b : TcpTxBuffer α} {p k : ℕ}

/-- The pass over the sent list: the number found by rule 1, `seqPerRule3`, `isSeqPerRule3Valid`. -/
def scanSent (isRecovery : Bool) :
    List (TcpTxItem α) → ℕ → ℕ → Bool → Option ℕ × ℕ × Bool
  | [], _, seqPerRule3, valid => (none, seqPerRule3, valid)
  | item :: rest, beginOfCurrentPkt, seqPerRule3, valid =>
    let next := seqAdd beginOfCurrentPkt item.size
    if ¬item.retrans ∧ ¬item.sacked then
      if item.lost then (some beginOfCurrentPkt, seqPerRule3, valid)
      else if seqPerRule3 = 0 ∧ isRecovery then scanSent isRecovery rest next beginOfCurrentPkt true
      else scanSent isRecovery rest next seqPerRule3 valid
    else scanSent isRecovery rest next seqPerRule3 valid

/-- `rWnd` is the result of `m_rWndCallback`. -/
def nextSeg (b : TcpTxBuffer α) (segmentSize rWnd : ℕ) (isRecovery : Bool) : Option (ℕ × ℕ) :=
  match scanSent isRecovery b.sentList b.firstByteSeq 0 false with
  | (some seq, _, _) => some (seq, seqAdd seq segmentSize)
  | (none, seqPerRule3, valid) =>
    let endOfSent := seqAdd b.firstByteSeq b.sentSize.value
    if 0 < b.sizeFromSequence endOfSent then
      if b.sentSize.value ≤ rWnd then
        some (endOfSent, seqAdd endOfSent (min segmentSize (sub32 rWnd b.sentSize.value)))
      else none
    else if valid then some (seqPerRule3, seqAdd seqPerRule3 segmentSize)
    else none

/-! ### The rules -/

def resendable (item : TcpTxItem α) : Bool := !item.retrans && !item.sacked

def due (item : TcpTxItem α) : Bool := resendable item && item.lost

def firstOf (kind : TcpTxItem α → Bool) : List (TcpTxItem α) → Option ℕ
  | [] => none
  | item :: rest =>
    if kind item then some 0 else (firstOf kind rest).map fun k => item.size + k

def rules (b : TcpTxBuffer α) (segmentSize rWnd : ℕ) (isRecovery : Bool) : Option (ℕ × ℕ) :=
  match firstOf due b.sentList with
  | some k => some (k, segmentSize)
  | none =>
    if b.appList ≠ [] ∧ bytes b.sentList < rWnd then
      some (bytes b.sentList, min segmentSize (rWnd - bytes b.sentList))
    else if isRecovery then (firstOf resendable b.sentList).map fun k => (k, segmentSize)
    else none

/-- Without a lost item: new data and a window that does not exceed the sent data, where there is
something for rule 3 or the window is just full; or number 0 begins the first of several items
for rule 3. -/
def Slips (b : TcpTxBuffer α) (rWnd : ℕ) (isRecovery : Bool) : Prop :=
  firstOf due b.sentList = none ∧
    (b.appList ≠ [] ∧
        (rWnd = bytes b.sentList ∨
          rWnd < bytes b.sentList ∧ isRecovery = true ∧ firstOf resendable b.sentList ≠ none) ∨
      b.appList = [] ∧ isRecovery = true ∧
        (firstOf resendable b.sentList).map (seqAdd b.firstByteSeq) = some 0 ∧
        1 < b.sentList.countP resendable)

instance (b : TcpTxBuffer α) (rWnd : ℕ) (isRecovery : Bool) :
    Decidable (b.Slips rWnd isRecovery) :=
  inferInstanceAs (Decidable (_ ∧ (_ ∧ (_ ∨ _ ∧ _ ∧ _) ∨ _ ∧ _ ∧ _ ∧ _)))

section Scan
variable {kind : TcpTxItem α → Bool} {s : ℕ} {v isRecovery : Bool}

theorem firstOf_lt (hf : Full items) (hk : firstOf kind items = some k) : k < bytes items := by
  induction items generalizing k with
  | nil => cases hk
  | cons item rest ih =>
    rw [Full.cons_iff] at hf
    have hpos : 0 < item.size := List.length_pos_of_ne_nil hf.1
    rw [firstOf] at hk
    rw [bytes_cons]
    split_ifs at hk
    · cases hk
      omega
    · obtain ⟨j, hj, rfl⟩ := Option.map_eq_some_iff.mp hk
      have := ih hf.2 hj
      omega

theorem firstOf_eq_none_iff : firstOf kind items = none ↔ items.countP kind = 0 := by
  induction items with
  | nil => exact ⟨fun _ => rfl, fun _ => rfl⟩
  | cons item rest ih =>
    rw [firstOf, List.countP_cons]
    by_cases hkind : kind item
    · simp [hkind]
    · simp [hkind, ih]

theorem resendable_iff (item : TcpTxItem α) :
    resendable item = true ↔ ¬item.retrans = true ∧ ¬item.sacked = true := by
  rw [resendable]
  cases item.retrans <;> cases item.sacked <;> decide

theorem scanSent_cons (item : TcpTxItem α) (rest : List (TcpTxItem α)) (p s : ℕ) (v : Bool) :
    scanSent isRecovery (item :: rest) (seqAt p) s v =
      if due item then (some (seqAt p), s, v)
      else if resendable item ∧ s = 0 ∧ isRecovery = true then
        scanSent isRecovery rest (seqAt (p + item.size)) (seqAt p) true
      else scanSent isRecovery rest (seqAt (p + item.size)) s v := by
  have hopen := resendable_iff item
  rw [scanSent, seqAdd_at, due]
  by_cases hitem : resendable item = true
  · rw [if_pos (hopen.mp hitem)]
    simp [hitem]
  · rw [if_neg fun h => hitem (hopen.mpr h)]
    simp [hitem]

theorem scanSent_lost (isRecovery : Bool) (hk : firstOf due items = some k) (p s : ℕ) (v : Bool) :
    (scanSent isRecovery items (seqAt p) s v).1 = some (seqAt (p + k)) := by
  induction items generalizing k p s v with
  | nil => cases hk
  | cons item rest ih =>
    rw [firstOf] at hk
    rw [scanSent_cons]
    split_ifs at hk with hdue
    · cases hk
      rw [if_pos hdue]
      rfl
    · obtain ⟨j, hj, rfl⟩ := Option.map_eq_some_iff.mp hk
      rw [if_neg hdue, ← Nat.add_assoc]
      split_ifs
      · exact ih hj _ _ _
      · exact ih hj _ _ _

theorem scanSent_none (isRecovery : Bool) (hk : firstOf due items = none) (p s : ℕ) (v : Bool) :
    (scanSent isRecovery items (seqAt p) s v).1 = none := by
  induction items generalizing p s v with
  | nil => rfl
  | cons item rest ih =>
    rw [firstOf] at hk
    split_ifs at hk with hdue
    rw [Option.map_eq_none_iff] at hk
    rw [scanSent_cons, if_neg hdue]
    split_ifs
    · exact ih hk _ _ _
    · exact ih hk _ _ _

theorem scanSent_same (hk : firstOf due items = none) (p s : ℕ) (v : Bool)
    (h : isRecovery = false ∨ s ≠ 0 ∨ items.countP resendable = 0) :
    scanSent isRecovery items (seqAt p) s v = (none, s, v) := by
  induction items generalizing p with
  | nil => rfl
  | cons item rest ih =>
    rw [firstOf] at hk
    split_ifs at hk with hdue
    rw [Option.map_eq_none_iff] at hk
    have hskip : ¬((resendable item : Prop) ∧ s = 0 ∧ isRecovery = true) := by
      intro hall
      rcases h with h | h | h
      · exact absurd hall.2.2 (by simp [h])
      · exact h hall.2.1
      · rw [List.countP_eq_zero] at h
        exact h item List.mem_cons_self hall.1
    rw [scanSent_cons, if_neg hdue, if_neg hskip]
    apply ih hk
    refine h.imp_right fun h => h.imp_right fun h => ?_
    rw [List.countP_cons] at h
    omega

theorem scanSent_rule3 (hdue : firstOf due items = none) (hk : firstOf resendable items = some k)
    (p : ℕ) (v : Bool) (h : seqAt (p + k) = 0 → items.countP resendable ≤ 1) :
    scanSent true items (seqAt p) 0 v = (none, seqAt (p + k), true) := by
  induction items generalizing k p with
  | nil => cases hk
  | cons item rest ih =>
    rw [firstOf] at hdue hk
    split_ifs at hdue with hnot
    rw [Option.map_eq_none_iff] at hdue
    rw [scanSent_cons, if_neg hnot]
    rw [List.countP_cons] at h
    split_ifs at hk with hopen
    · cases hk
      rw [if_pos ⟨hopen, rfl, rfl⟩]
      apply scanSent_same hdue
      right
      by_cases hzero : seqAt p = 0
      · have := h hzero
        rw [if_pos hopen] at this
        exact .inr (by omega)
      · exact .inl hzero
    · obtain ⟨j, hj, rfl⟩ := Option.map_eq_some_iff.mp hk
      rw [if_neg fun hall => hopen hall.1, ← Nat.add_assoc]
      apply ih hdue hj
      intro hzero
      rw [Nat.add_assoc] at hzero
      have := h hzero
      omega

end Scan

theorem Laid.scanSent_old (hl : Laid p b) {isRecovery : Bool}
    (hdue : firstOf due b.sentList = none)
    (hz : isRecovery = true → (firstOf resendable b.sentList).map (seqAdd b.firstByteSeq) = some 0 →
      ¬1 < b.sentList.countP resendable) :
    scanSent isRecovery b.sentList (seqAt p) 0 false =
      match if isRecovery then firstOf resendable b.sentList else none with
      | some k => (none, seqAt (p + k), true)
      | none => (none, 0, false) := by
  cases hrec : isRecovery with
  | false => exact scanSent_same hdue p 0 false (.inl rfl)
  | true =>
    rw [if_pos rfl]
    cases hopen : firstOf resendable b.sentList with
    | none => exact scanSent_same hdue p 0 false (.inr (.inr (firstOf_eq_none_iff.mp hopen)))
    | some k =>
      apply scanSent_rule3 hdue hopen
      intro hzero
      apply Nat.le_of_not_lt
      apply hz hrec
      rw [hopen, Option.map_some, hl.first, seqAdd_at, hzero]

theorem Laid.nextSeg (hl : Laid p b) {rWnd : ℕ} (hr : rWnd < 4294967296) (segmentSize : ℕ)
    {isRecovery : Bool} (hs : ¬b.Slips rWnd isRecovery) :
    b.nextSeg segmentSize rWnd isRecovery =
      (b.rules segmentSize rWnd isRecovery).map fun r =>
        (seqAdd b.firstByteSeq r.1, seqAdd (seqAdd b.firstByteSeq r.1) r.2) := by
  have hunsent : 0 < b.sizeFromSequence (seqAdd b.firstByteSeq b.sentSize.value) ↔
      b.appList ≠ [] := by
    rw [hl.endOfSent, hl.sizeFromSequence (Nat.le_add_right _ _), Nat.add_sub_cancel_left]
    constructor
    · intro hpos hnil
      rw [hnil, bytes_nil] at hpos
      omega
    · intro hne
      apply Nat.pos_of_ne_zero
      exact fun hzero => hne (hl.fullApp.eq_nil hzero)
  have hsmall := hl.small
  rw [TcpTxBuffer.nextSeg, rules]
  cases hdue : firstOf due b.sentList with
  | some k =>
    have hscan := scanSent_lost isRecovery hdue p 0 false
    rw [hl.first]
    generalize scanSent isRecovery b.sentList (seqAt p) 0 false = r at hscan
    obtain ⟨found, noted⟩ := r
    cases hscan
    dsimp only
    rw [Option.map_some, seqAdd_at p k]
  | none =>
    rw [Slips, not_and] at hs
    obtain ⟨hwindow, hzero⟩ := not_or.mp (hs hdue)
    by_cases happ : b.appList = []
    · have hempty : ¬0 < b.sizeFromSequence (seqAdd b.firstByteSeq b.sentSize.value) :=
        hunsent.not.mpr fun h => h happ
      have hnothing : ¬(b.appList ≠ [] ∧ bytes b.sentList < rWnd) := fun h => h.1 happ
      have hold : (if isRecovery then (firstOf resendable b.sentList).map fun k => (k, segmentSize)
          else none) = (if isRecovery then firstOf resendable b.sentList else none).map
            fun k => (k, segmentSize) := by
        split_ifs <;> rfl
      have hscan := hl.scanSent_old hdue fun h1 h2 h3 => hzero ⟨happ, h1, h2, h3⟩
      rw [← hl.first] at hscan
      dsimp only
      rw [if_neg hnothing, hold, hscan]
      cases if isRecovery then firstOf resendable b.sentList else none with
      | none =>
        dsimp only
        rw [if_neg hempty]
        rfl
      | some k =>
        dsimp only
        rw [if_neg hempty, if_pos rfl, Option.map_some, Option.map_some, hl.first, seqAdd_at p k]
    · have hscan := scanSent_none isRecovery hdue p 0 false
      rw [hl.first]
      generalize scanSent isRecovery b.sentList (seqAt p) 0 false = r at hscan
      obtain ⟨found, noted⟩ := r
      cases hscan
      dsimp only
      rw [← hl.first, if_pos (hunsent.mpr happ), hl.sentSize, Counter.exactly_value]
      have hne : rWnd ≠ bytes b.sentList := fun h => hwindow ⟨happ, .inl h⟩
      by_cases hroom : bytes b.sentList < rWnd
      · rw [if_pos hroom.le, if_pos ⟨happ, hroom⟩, sub32_of_le hr hroom.le]
        rfl
      · rw [if_neg (by omega), if_neg fun h => hroom h.2]
        split_ifs with hrec
        · have hopen : firstOf resendable b.sentList = none := by
            by_contra hopen
            exact hwindow ⟨happ, .inr ⟨by omega, hrec, hopen⟩⟩
          rw [hopen]
          rfl
        · rfl

theorem Laid.rules_bounds (hl : Laid p b) {segmentSize rWnd n : ℕ} {isRecovery : Bool}
    (h : b.rules segmentSize rWnd isRecovery = some (k, n)) :
    k < (stored b).length ∧ n ≤ segmentSize ∧ (0 < segmentSize → 0 < n) := by
  rw [stored_length]
  rw [rules] at h
  cases hdue : firstOf due b.sentList with
  | some j =>
    rw [hdue] at h
    cases h
    have := firstOf_lt hl.fullSent hdue
    exact ⟨by omega, le_refl _, id⟩
  | none =>
    rw [hdue] at h
    dsimp only at h
    split_ifs at h with hnew hrec
    · cases h
      have hpos : 0 < bytes b.appList :=
        Nat.pos_of_ne_zero fun hzero => hnew.1 (hl.fullApp.eq_nil hzero)
      exact ⟨by omega, Nat.min_le_left _ _, fun hsize => by omega⟩
    · obtain ⟨j, hj, heq⟩ := Option.map_eq_some_iff.mp h
      cases heq
      have := firstOf_lt hl.fullSent hj
      exact ⟨by omega, le_refl _, id⟩

/-- In every reachable state: outside the three slips the result is that of the first rule that
applies, and there is none when no rule applies. -/
theorem next_seg_follows_rules {α : Type*} (headSeq maxBuffer dupAckThresh segmentSize : ℕ)
    {rWnd : ℕ} (isRecovery : Bool) {es : List (Operation α)} {b : TcpTxBuffer α}
    (h : (scoreboard.restrict Roomy).Reaches (create (seqAt headSeq) maxBuffer dupAckThresh) es b)
    (hr : rWnd < 4294967296) (hs : ¬b.Slips rWnd isRecovery) :
    (b.nextSeg segmentSize rWnd isRecovery =
      (b.rules segmentSize rWnd isRecovery).map fun r =>
        (seqAdd b.firstByteSeq r.1, seqAdd (seqAdd b.firstByteSeq r.1) r.2)) ∧
    ∀ k n, b.rules segmentSize rWnd isRecovery = some (k, n) →
      k < (stored b).length ∧ n ≤ segmentSize ∧ (0 < segmentSize → 0 < n) := by
  obtain ⟨p, hl⟩ := laid_reached h
  exact ⟨hl.nextSeg hr segmentSize hs, fun k n hrules => hl.rules_bounds hrules⟩

/-- In recovery, with everything sent and an item at number 0 that is not the first. -/
theorem next_seg_follows_rules_recovery :
    let b := scoreboard.exec (create (seqAt 4294967295) 100 3)
      [.add (List.range 4), .copyFromSequence 1 4294967295, .copyFromSequence 1 0,
        .copyFromSequence 2 1, .update [(1, 3)]]
    (b.nextSeg 10 50 true = (b.rules 10 50 true).map fun r =>
        (seqAdd b.firstByteSeq r.1, seqAdd (seqAdd b.firstByteSeq r.1) r.2)) ∧
      ∀ k n, b.rules 10 50 true = some (k, n) →
        k < (stored b).length ∧ n ≤ 10 ∧ (0 < 10 → 0 < n) :=
  next_seg_follows_rules 4294967295 100 3 10 true (Machine.Permits.reaches (by decide +kernel))
    (by decide) (by decide +kernel)

/-- Five bytes are stored and a segment may have ten. -/
theorem range_ends_behind_data :
    ∃ b : TcpTxBuffer ℕ, (scoreboard.restrict Roomy).Reaches (create (seqAt 1000) 100 3)
        [.add (List.range 5)] b ∧
      ∃ seq seqHigh, b.nextSeg 10 100 false = some (seq, seqHigh) ∧
        seqGt seqHigh b.tailSequence :=
  ⟨_, Machine.Permits.reaches (by decide +kernel), 1000, 1010, by decide +kernel,
    by decide +kernel⟩

end NetGymSim.Internet.TcpTxBuffer

import NetGymSim.Wifi.BlockAckRuns

/-!
# `OriginatorBlockAckAgreement`

The originator keeps one bit for each sequence number of its transmit window, set when the MPDU
is acknowledged. Each notification moves the window over the numbers at its start that are
acknowledged; a transmission beyond its end and a discarded MPDU move it first.
-/

namespace NetGymSim.Wifi
open NetGymSim.Lib

namespace BlockAckWindow

/-- `At` asserts that the distance is in the window. -/
def at? (w : BlockAckWindow) (distance : ℕ) : Option Bool :=
  if distance < w.winSize then some (w.get distance) else none

def setAt (w : BlockAckWindow) (distance : ℕ) : Option BlockAckWindow :=
  if distance < w.winSize then some (w.mark distance) else none

/-- The loop of `AdvanceTxWindow`; there is no result when the turns run out. -/
def advanceLoop : ℕ → BlockAckWindow → Option BlockAckWindow
  | 0, _ => none
  | turns + 1, w => do
      if ← w.at? 0 then advanceLoop turns (w.advance 1) else return w

/-- A turn clears a bit, so a window has no more turns than bits. -/
def advanceTxWindow (w : BlockAckWindow) : Option BlockAckWindow := advanceLoop (w.winSize + 1) w

def notifyTransmittedMpdu (w : BlockAckWindow) (mpduSeqNumber : ℕ) : Option BlockAckWindow :=
  let distance := getDistance mpduSeqNumber w.winStart % 65536
  if distance ≥ 2048 then some w
  else if distance ≥ w.winSize then (w.advance (distance - w.winSize + 1)).advanceTxWindow
  else some w

def notifyAckedMpdu (w : BlockAckWindow) (mpduSeqNumber : ℕ) : Option BlockAckWindow :=
  let distance := getDistance mpduSeqNumber w.winStart % 65536
  if distance ≥ 2048 then some w
  else w.setAt distance >>= advanceTxWindow

def notifyDiscardedMpdu (w : BlockAckWindow) (mpduSeqNumber : ℕ) : Option BlockAckWindow :=
  let distance := getDistance mpduSeqNumber w.winStart % 65536
  if distance ≥ 2048 then some w
  else (w.advance (distance + 1)).advanceTxWindow

end BlockAckWindow

/-- A notification with the 12-bit sequence number of its MPDU. -/
inductive TxEvent
  | transmitted (seq : ℕ)
  | acked (seq : ℕ)
  | discarded (seq : ℕ)
  deriving DecidableEq

def TxEvent.seq : TxEvent → ℕ
  | .transmitted seq => seq
  | .acked seq => seq
  | .discarded seq => seq

/-- `base` counts the window start without the wrap, one turn of the circle ahead so that the
numbers behind it have one too. The lists hold the numbers of the MPDUs notified so far; `pushing`
holds those that were beyond the window end when they were transmitted. No operation reads them. -/
structure Originator where
  tx : BlockAckWindow
  base : ℕ
  transmitted : List ℕ := []
  acked : List ℕ := []
  discarded : List ℕ := []
  pushing : List ℕ := []

namespace Originator

def new (bufferSize startingSeq : ℕ) : Originator where
  tx := .init startingSeq bufferSize
  base := startingSeq + 4096

/-- A 12-bit number less than 2048 ahead of the window start is ahead of it, any other behind. -/
def number (s : Originator) (seq : ℕ) : ℕ :=
  let distance := getDistance seq s.tx.winStart
  if distance < 2048 then s.base + distance else s.base + distance - 4096

def notify (s : Originator) : TxEvent → Option BlockAckWindow
  | .transmitted seq => s.tx.notifyTransmittedMpdu seq
  | .acked seq => s.tx.notifyAckedMpdu seq
  | .discarded seq => s.tx.notifyDiscardedMpdu seq

def note (s : Originator) : TxEvent → Originator
  | .transmitted seq =>
      let n := s.number seq
      { s with
        transmitted := s.transmitted ++ [n]
        pushing := if s.base + s.tx.winSize ≤ n then s.pushing ++ [n] else s.pushing }
  | .acked seq => { s with acked := s.acked ++ [s.number seq] }
  | .discarded seq => { s with discarded := s.discarded ++ [s.number seq] }

/-- A call that fails an assertion stops the program; the window is then left as it was. -/
def next (s : Originator) (e : TxEvent) : Originator :=
  let tx := (s.notify e).getD s.tx
  { s.note e with tx := tx, base := s.base + getDistance tx.winStart s.tx.winStart }

def Allowed (s : Originator) (e : TxEvent) : Prop :=
  e.seq < 4096 ∧ match e with
    | .acked seq => s.number seq ∈ s.transmitted
    | _ => True

def machine : Machine Originator TxEvent := ⟨Allowed, next⟩

instance (s : Originator) : (e : TxEvent) → Decidable (machine.enabled s e)
  | .transmitted seq => inferInstanceAs (Decidable (seq < 4096 ∧ True))
  | .acked seq => inferInstanceAs (Decidable (seq < 4096 ∧ s.number seq ∈ s.transmitted))
  | .discarded seq => inferInstanceAs (Decidable (seq < 4096 ∧ True))

end Originator

/-! ### The loop -/

namespace BlockAckWindow

theorem advanceTxWindow_spec {w : BlockAckWindow} {base : ℕ} {acked : List ℕ}
    (h : Scores w base acked) :
    ∃ w' k, w.advanceTxWindow = some w' ∧ w'.winSize = w.winSize ∧ Scores w' (base + k) acked ∧
      base + k ∉ acked ∧ ∀ i < k, base + i ∈ acked := by
  have hloop : ∀ turns room (w : BlockAckWindow) base, Scores w base acked → room < turns →
      (∀ n ∈ acked, n < base + room) →
      ∃ w' k, advanceLoop turns w = some w' ∧ w'.winSize = w.winSize ∧
        Scores w' (base + k) acked ∧ base + k ∉ acked ∧ ∀ i < k, base + i ∈ acked := by
    intro turns
    induction turns with
    | zero => omega
    | succ turns ih =>
      intro room w base h hturns hroom
      have hpos : 0 < w.winSize := (Nat.zero_le _).trans_lt h.head
      by_cases hmem : base ∈ acked
      · have hget : w.get 0 = true := (h.bits 0 hpos).mpr hmem
        have hlt := hroom base hmem
        obtain ⟨hadv, hsize⟩ := h.advance 1
        obtain ⟨w', k, hrun, hsize', hs, hout, hin⟩ := ih (room - 1) (w.advance 1) (base + 1) hadv
          (by omega) (fun n hn => by have := hroom n hn; omega)
        have hplace : base + 1 + k = base + (k + 1) := by omega
        rw [hplace] at hs hout
        refine ⟨w', k + 1, ?_, hsize'.trans hsize, hs, hout, ?_⟩
        · simp only [advanceLoop, at?, if_pos hpos, hget]
          exact hrun
        · intro i hi
          cases i with
          | zero => exact hmem
          | succ i =>
            have := hin i (by omega)
            rwa [Nat.add_assoc, Nat.add_comm 1 i] at this
      · have hget : w.get 0 = false := by
          apply Bool.eq_false_of_not_eq_true
          intro ht
          exact hmem ((h.bits 0 hpos).mp ht)
        refine ⟨w, 0, ?_, rfl, h, hmem, by omega⟩
        simp only [advanceLoop, at?, if_pos hpos, hget]
        rfl
  exact hloop (w.winSize + 1) w.winSize w base h (by omega) h.below

theorem advance_advanceTxWindow {w : BlockAckWindow} {base : ℕ} {acked : List ℕ}
    (h : Scores w base acked) (count : ℕ) :
    ∃ w' k, (w.advance count).advanceTxWindow = some w' ∧ w'.winSize = w.winSize ∧
      Scores w' (base + k) acked ∧ base + k ∉ acked ∧ count ≤ k ∧
      ∀ i < k, i < count ∨ base + i ∈ acked := by
  obtain ⟨hadv, hsize⟩ := h.advance count
  obtain ⟨w', k, hrun, hsize', hs, hout, hin⟩ := advanceTxWindow_spec hadv
  rw [Nat.add_assoc] at hs hout
  refine ⟨w', count + k, hrun, hsize'.trans hsize, hs, hout, by omega, fun i hi => ?_⟩
  by_cases hc : i < count
  · exact .inl hc
  · have := hin (i - count) (by omega)
    rw [Nat.add_assoc, show count + (i - count) = i by omega] at this
    exact .inr this

end BlockAckWindow

theorem Scores.behind {w : BlockAckWindow} {base n : ℕ} {received : List ℕ}
    (h : Scores w base received) (hn : n < base) : Scores w base (received ++ [n]) where
  start := h.start
  head := h.head
  bits i hi := by
    rw [h.bits i hi, List.mem_append, List.mem_singleton]
    have : base + i ≠ n := by omega
    simp [this]
  below m hm := by
    rcases List.mem_append.mp hm with hm | hm
    · exact h.below m hm
    · rw [List.mem_singleton.mp hm]
      omega
  near m hm := by
    rcases List.mem_append.mp hm with hm | hm
    · exact h.near m hm
    · rw [List.mem_singleton.mp hm]
      omega

/-! ### Runs -/

namespace Originator

/-- Why the window may move past `n`: it was acknowledged, an MPDU from `n` on was discarded, or
one beyond the end of a window that held `n` was transmitted. -/
def Passed (s : Originator) (n : ℕ) : Prop :=
  n ∈ s.acked ∨ (∃ m ∈ s.discarded, n ≤ m) ∨ ∃ m ∈ s.pushing, n + s.tx.winSize ≤ m

structure Tracks (startingSeq : ℕ) (s : Originator) : Prop where
  scores : Scores s.tx s.base s.acked
  turn : 4096 ≤ s.base
  sent : ∀ n ∈ s.transmitted, n < s.base + s.tx.winSize
  near : ∀ n ∈ s.acked, n < s.base + 2048
  head : s.base ∉ s.acked
  passed : ∀ n, startingSeq + 4096 ≤ n → n < s.base → s.Passed n

/-- One notification: the calls return, the window moves `k` numbers on, over numbers that it may
move past. -/
structure Moves (s : Originator) (e : TxEvent) (tx : BlockAckWindow) (k : ℕ) : Prop where
  returns : s.notify e = some tx
  size : tx.winSize = s.tx.winSize
  scores : Scores tx (s.base + k) (s.note e).acked
  sent : ∀ n ∈ (s.note e).transmitted, n < s.base + k + s.tx.winSize
  near : ∀ n ∈ (s.note e).acked, n < s.base + 2048
  head : s.base + k ∉ (s.note e).acked
  bound : k ≤ 2048
  passed : ∀ i < k, (s.note e).Passed (s.base + i)

variable {startingSeq : ℕ} {s : Originator}

theorem Tracks.distance (h : Tracks startingSeq s) (seq : ℕ) :
    ∃ d < 4096, getDistance seq s.tx.winStart = d ∧
      s.number seq = if d < 2048 then s.base + d else s.base + d - 4096 := by
  refine ⟨getDistance seq s.tx.winStart, ?_, rfl, rfl⟩
  rw [h.scores.start, getDistance_eq (Nat.mod_lt _ (by omega))]
  exact forward_lt (by omega) _ _

/-- Past the numbers left behind by `Advance` the window only moves over acknowledged ones. -/
theorem near_bound {base count k : ℕ} {acked : List ℕ} (hcount : count ≤ 2048)
    (hnear : ∀ n ∈ acked, n < base + 2048) (hin : ∀ i < k, i < count ∨ base + i ∈ acked) :
    k ≤ 2048 := by
  by_contra hk
  rcases hin 2048 (by omega) with h | h
  · omega
  · have := hnear _ h
    omega

theorem Tracks.stays (h : Tracks startingSeq s) {e : TxEvent} (hrun : s.notify e = some s.tx)
    (hsent : ∀ n ∈ (s.note e).transmitted, n ∈ s.transmitted ∨ n < s.base + s.tx.winSize)
    (hacked : ∀ n ∈ (s.note e).acked, n ∈ s.acked ∨ n < s.base)
    (hscores : Scores s.tx s.base (s.note e).acked) : Moves s e s.tx 0 where
  returns := hrun
  size := rfl
  scores := hscores
  sent n hn := (hsent n hn).elim (h.sent n) id
  near n hn := by
    rcases hacked n hn with hn | hn
    · exact h.near n hn
    · omega
  head hm := by
    rcases hacked _ hm with hm | hm
    · exact h.head hm
    · omega
  bound := Nat.zero_le _
  passed i hi := absurd hi (Nat.not_lt_zero i)

theorem Tracks.transmitted (h : Tracks startingSeq s) (seq : ℕ) :
    ∃ tx k, Moves s (.transmitted seq) tx k := by
  obtain ⟨d, hd, hdist, hnum⟩ := h.distance seq
  have hturn := h.turn
  have hrun : s.notify (.transmitted seq) = if d ≥ 2048 then some s.tx
      else if d ≥ s.tx.winSize then (s.tx.advance (d - s.tx.winSize + 1)).advanceTxWindow
      else some s.tx := by
    simp only [notify, BlockAckWindow.notifyTransmittedMpdu, hdist,
      Nat.mod_eq_of_lt (show d < 65536 by omega)]
  have hstay : s.number seq < s.base + s.tx.winSize → s.notify (.transmitted seq) = some s.tx →
      Moves s (.transmitted seq) s.tx 0 := by
    intro hlt hrun
    apply h.stays hrun _ (fun n hn => .inl hn) h.scores
    intro n hn
    rcases List.mem_append.mp hn with hn | hn
    · exact .inl hn
    · rw [List.mem_singleton.mp hn]
      exact .inr hlt
  by_cases hhalf : d < 2048
  · rw [if_neg (by omega)] at hrun
    rw [if_pos hhalf] at hnum
    by_cases hin : d < s.tx.winSize
    · rw [if_neg (by omega)] at hrun
      exact ⟨s.tx, 0, hstay (by omega) hrun⟩
    · rw [if_pos (by omega)] at hrun
      obtain ⟨w', k, hw, hsize, hscores, hout, hcount, hpast⟩ :=
        BlockAckWindow.advance_advanceTxWindow h.scores (d - s.tx.winSize + 1)
      refine ⟨w', k, hrun.trans hw, hsize, hscores, fun n hn => ?_, h.near, hout, ?_,
        fun i hi => ?_⟩
      · rcases List.mem_append.mp hn with hn | hn
        · have := h.sent n hn
          omega
        · rw [List.mem_singleton.mp hn]
          omega
      · exact near_bound (by omega) h.near hpast
      · rcases hpast i hi with hi | hi
        · refine .inr (.inr ⟨s.number seq, ?_, ?_⟩)
          · have hpush : s.base + s.tx.winSize ≤ s.number seq := by omega
            show _ ∈ if _ then _ else _
            rw [if_pos hpush]
            exact List.mem_append_right _ List.mem_cons_self
          · show s.base + i + s.tx.winSize ≤ s.number seq
            omega
        · exact .inl hi
  · rw [if_pos (by omega)] at hrun
    rw [if_neg hhalf] at hnum
    exact ⟨s.tx, 0, hstay (by omega) hrun⟩

theorem Tracks.acked (h : Tracks startingSeq s) {seq : ℕ}
    (hsent : s.number seq ∈ s.transmitted) : ∃ tx k, Moves s (.acked seq) tx k := by
  obtain ⟨d, hd, hdist, hnum⟩ := h.distance seq
  have hturn := h.turn
  have hlt := h.sent _ hsent
  have hrun : s.notify (.acked seq) = if d ≥ 2048 then some s.tx
      else s.tx.setAt d >>= BlockAckWindow.advanceTxWindow := by
    simp only [notify, BlockAckWindow.notifyAckedMpdu, hdist,
      Nat.mod_eq_of_lt (show d < 65536 by omega)]
  by_cases hhalf : d < 2048
  · rw [if_pos hhalf] at hnum
    rw [if_neg (by omega), BlockAckWindow.setAt, if_pos (by omega)] at hrun
    have hmark := h.scores.mark (d := d) (by omega) hd
    rw [← hnum] at hmark
    have hnear : ∀ n ∈ s.acked ++ [s.number seq], n < s.base + 2048 := by
      intro n hn
      rcases List.mem_append.mp hn with hn | hn
      · exact h.near n hn
      · rw [List.mem_singleton.mp hn]
        omega
    obtain ⟨w', k, hw, hsize, hscores, hout, hin⟩ := BlockAckWindow.advanceTxWindow_spec hmark
    refine ⟨w', k, hrun.trans hw, hsize.trans (BlockAckWindow.winSize_mark d), hscores,
      fun n hn => ?_, hnear, hout, ?_, fun i hi => .inl (hin i hi)⟩
    · have := h.sent n hn
      omega
    · exact near_bound (Nat.zero_le _) hnear fun i hi => .inr (hin i hi)
  · rw [if_neg hhalf] at hnum
    rw [if_pos (by omega)] at hrun
    have hold : s.number seq < s.base := by omega
    refine ⟨s.tx, 0, h.stays hrun (fun n hn => .inl hn) (fun n hn => ?_) (h.scores.behind hold)⟩
    rcases List.mem_append.mp hn with hn | hn
    · exact .inl hn
    · rw [List.mem_singleton.mp hn]
      exact .inr hold

theorem Tracks.discarded (h : Tracks startingSeq s) (seq : ℕ) :
    ∃ tx k, Moves s (.discarded seq) tx k := by
  obtain ⟨d, hd, hdist, hnum⟩ := h.distance seq
  have hrun : s.notify (.discarded seq) = if d ≥ 2048 then some s.tx
      else (s.tx.advance (d + 1)).advanceTxWindow := by
    simp only [notify, BlockAckWindow.notifyDiscardedMpdu, hdist,
      Nat.mod_eq_of_lt (show d < 65536 by omega)]
  by_cases hhalf : d < 2048
  · rw [if_pos hhalf] at hnum
    rw [if_neg (by omega)] at hrun
    obtain ⟨w', k, hw, hsize, hscores, hout, hcount, hpast⟩ :=
      BlockAckWindow.advance_advanceTxWindow h.scores (d + 1)
    refine ⟨w', k, hrun.trans hw, hsize, hscores, fun n hn => ?_, h.near, hout,
      near_bound (by omega) h.near hpast, fun i hi => ?_⟩
    · have := h.sent n hn
      omega
    · rcases hpast i hi with hi | hi
      · refine .inr (.inl ⟨s.number seq, List.mem_append_right _ List.mem_cons_self, ?_⟩)
        omega
      · exact .inl hi
  · rw [if_pos (by omega)] at hrun
    exact ⟨s.tx, 0, h.stays hrun (fun n hn => .inl hn) (fun n hn => .inl hn) h.scores⟩

theorem Tracks.moves (h : Tracks startingSeq s) {e : TxEvent} (he : machine.enabled s e) :
    ∃ tx k, Moves s e tx k := by
  cases e with
  | transmitted seq => exact h.transmitted seq
  | acked seq => exact h.acked he.2
  | discarded seq => exact h.discarded seq

theorem Moves.next_eq {e : TxEvent} {tx : BlockAckWindow} {k : ℕ} (hm : Moves s e tx k)
    (h : Tracks startingSeq s) : s.next e = { s.note e with tx := tx, base := s.base + k } := by
  have hk : getDistance tx.winStart s.tx.winStart = k := by
    have := hm.bound
    rw [hm.scores.start, h.scores.start, Recipient.getDistance_residue _ _ (by omega)]
  simp only [next, hm.returns, Option.getD_some, hk]

theorem Passed.note {n : ℕ} (h : s.Passed n) (e : TxEvent) : (s.note e).Passed n := by
  have hsub : s.acked ⊆ (s.note e).acked ∧ s.discarded ⊆ (s.note e).discarded ∧
      s.pushing ⊆ (s.note e).pushing ∧ (s.note e).tx = s.tx := by
    cases e with
    | transmitted seq =>
      refine ⟨List.Subset.refl _, List.Subset.refl _, ?_, rfl⟩
      dsimp only [Originator.note]
      split_ifs
      · exact List.subset_append_left _ _
      · exact List.Subset.refl _
    | acked seq =>
      exact ⟨List.subset_append_left _ _, List.Subset.refl _, List.Subset.refl _, rfl⟩
    | discarded seq =>
      exact ⟨List.Subset.refl _, List.subset_append_left _ _, List.Subset.refl _, rfl⟩
  obtain ⟨ha, hd, hp, htx⟩ := hsub
  rcases h with h | ⟨m, hm, hle⟩ | ⟨m, hm, hle⟩
  · exact .inl (ha h)
  · exact .inr (.inl ⟨m, hd hm, hle⟩)
  · rw [← htx] at hle
    exact .inr (.inr ⟨m, hp hm, hle⟩)

theorem Passed.withWindow {n base : ℕ} {tx : BlockAckWindow} (h : s.Passed n)
    (hsize : tx.winSize = s.tx.winSize) :
    Passed { s with tx := tx, base := base } n := by
  unfold Passed
  dsimp only
  rw [hsize]
  exact h

theorem note_tx (s : Originator) (e : TxEvent) : (s.note e).tx = s.tx := by
  cases e <;> rfl

theorem Tracks.next (h : Tracks startingSeq s) {e : TxEvent} (he : machine.enabled s e) :
    Tracks startingSeq (s.next e) := by
  obtain ⟨tx, k, hm⟩ := h.moves he
  have hturn := h.turn
  have hsize : tx.winSize = (s.note e).tx.winSize := by rw [note_tx, hm.size]
  rw [hm.next_eq h]
  refine ⟨hm.scores, by dsimp only; omega, fun n hn => ?_, fun n hn => ?_, hm.head,
    fun n hlow hn => ?_⟩
  · have := hm.sent n hn
    show n < s.base + k + tx.winSize
    rw [hm.size]
    exact this
  · have := hm.near n hn
    show n < s.base + k + 2048
    omega
  · apply Passed.withWindow _ hsize
    by_cases hbase : n < s.base
    · exact (h.passed n hlow hbase).note e
    · have hn' : n < s.base + k := hn
      have := hm.passed (n - s.base) (by omega)
      rwa [Nat.add_sub_cancel' (by omega)] at this

theorem Tracks.new {bufferSize startingSeq : ℕ} (hb : 1 ≤ bufferSize) (hs : startingSeq < 4096) :
    Tracks startingSeq (new bufferSize startingSeq) where
  scores := by
    have h := Scores.init hs hb
    refine ⟨?_, h.head, fun i hi => ?_, nofun, nofun⟩
    · show _ = (startingSeq + 4096) % 4096
      rw [Nat.add_mod_right]
      exact h.start
    · exact (h.bits i hi).trans (by simp [Originator.new])
  turn := Nat.le_add_left _ _
  sent := nofun
  near := nofun
  head := nofun
  passed n hlow hn := absurd hn (Nat.not_lt_of_le hlow)

/-- The originator's window in a state of a run, and what any further notification does. -/
structure Windowed (startingSeq : ℕ) (s : Originator) : Prop where
  head : s.tx.get 0 = false
  start : s.tx.winStart = s.base % 4096
  passed : ∀ n, startingSeq + 4096 ≤ n → n < s.base → s.Passed n
  moves : ∀ e, machine.enabled s e → ∃ tx k, s.notify e = some tx ∧ k ≤ 2048 ∧
    tx.winStart = (s.tx.winStart + k) % 4096 ∧ (s.next e).tx = tx ∧ (s.next e).base = s.base + k

theorem tx_window_moves_forward {bufferSize startingSeq : ℕ} (hb : 1 ≤ bufferSize)
    (hs : startingSeq < 4096) {es : List TxEvent} {s : Originator}
    (h : machine.Reaches (new bufferSize startingSeq) es s) : Windowed startingSeq s := by
  have ht : Tracks startingSeq s := by
    apply Machine.Reaches.invariant (P := Tracks startingSeq) (Tracks.new hb hs) _ h
    intro s e ht he
    exact ht.next he
  refine ⟨?_, ht.scores.start, ht.passed, fun e he => ?_⟩
  · apply Bool.eq_false_of_not_eq_true
    intro hget
    exact ht.head ((ht.scores.bits 0 ((Nat.zero_le _).trans_lt ht.scores.head)).mp hget)
  · obtain ⟨tx, k, hm⟩ := ht.moves he
    have hnext := hm.next_eq ht
    refine ⟨tx, k, hm.returns, hm.bound, ?_, by rw [hnext], by rw [hnext]⟩
    rw [hm.scores.start, ht.scores.start, Nat.mod_add_mod]

/-- A window across the wrap: a gap that a later transmission pushes out, then a discarded MPDU. -/
theorem tx_window_moves_forward_wrapped :
    Windowed 4094 (machine.exec (new 4 4094)
      [.transmitted 4094, .transmitted 4095, .transmitted 0, .acked 4095, .transmitted 3, .acked 0,
        .discarded 2, .acked 3]) :=
  tx_window_moves_forward (by decide) (by decide) (Machine.Permits.reaches (by decide +kernel))

/-- Discarding MPDU 1 moves the window past MPDU 0, which is neither acknowledged nor discarded. -/
theorem discard_passes_earlier :
    ¬ ∀ es s, machine.Reaches (new 64 0) es s → ∀ n, 4096 ≤ n → n < s.base →
      n ∈ s.acked ∨ n ∈ s.discarded ∨ ∃ m ∈ s.pushing, n + s.tx.winSize ≤ m := by
  intro h
  have hrun : machine.Reaches (new 64 0) [.transmitted 0, .transmitted 1, .discarded 1] _ :=
    Machine.Permits.reaches (by decide +kernel)
  have := h _ _ hrun 4096 (by decide) (by decide +kernel)
  revert this
  decide +kernel

end Originator
end NetGymSim.Wifi

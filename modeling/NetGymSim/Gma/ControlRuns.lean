import NetGymSim.Gma.ControlNumbers

/-!
# The life of a control message

A message waits under its first CSN with one expiry scheduled for that number, and leaves
the queue once. An expiry is not cancelled by the ACK, so that one of an earlier message
may still be scheduled under a number that is used again; a turned reverse TSU does so
although all outstanding numbers differ.
-/

namespace NetGymSim.Gma
open NetGymSim.Lib
namespace Endpoint

def sendsOf (ident : ℕ) : CtrlRecord → Bool
  | .sent i _ => i == ident
  | _ => false

def leavesOf (ident : ℕ) : CtrlRecord → Bool
  | .sent _ _ => false
  | .acknowledged i _ | .givenUp i _ _ | .testFailed i => i == ident

def transmissions (s : Endpoint) (ident : ℕ) : ℕ := s.log.countP (sendsOf ident)
def departures (s : Endpoint) (ident : ℕ) : ℕ := s.log.countP (leavesOf ident)

/-- The number taken is not recorded by a message that waits. -/
def distinctNumbers : Rule where
  new s := ∀ e ∈ s.txedCtrQueue.toList, s.mxCtrSeqNumber ∉ e.2.csnToTxtimeMap
  turn s n := ∀ e ∈ s.txedCtrQueue.toList, n ∉ e.2.csnToTxtimeMap
  resend s := ∀ e ∈ s.txedCtrQueue.toList, s.mxCtrSeqNumber ∉ e.2.csnToTxtimeMap

def quietNumbers : Rule where
  new s := distinctNumbers.new s ∧ s.mxCtrSeqNumber ∉ s.expiries
  turn s n := distinctNumbers.turn s n ∧ n ∉ s.expiries
  resend := distinctNumbers.resend

section Decidability

instance distinctNumbers.decidableNew (s : Endpoint) : Decidable (distinctNumbers.new s) :=
  inferInstanceAs (Decidable (∀ e ∈ s.txedCtrQueue.toList, _))

instance distinctNumbers.decidableTurn (s : Endpoint) (n : ℕ) :
    Decidable (distinctNumbers.turn s n) :=
  inferInstanceAs (Decidable (∀ e ∈ s.txedCtrQueue.toList, _))

instance distinctNumbers.decidableResend (s : Endpoint) : Decidable (distinctNumbers.resend s) :=
  inferInstanceAs (Decidable (∀ e ∈ s.txedCtrQueue.toList, _))

instance quietNumbers.decidableNew (s : Endpoint) : Decidable (quietNumbers.new s) :=
  inferInstanceAs (Decidable (_ ∧ _))

instance quietNumbers.decidableTurn (s : Endpoint) (n : ℕ) : Decidable (quietNumbers.turn s n) :=
  inferInstanceAs (Decidable (_ ∧ _))

instance quietNumbers.decidableResend (s : Endpoint) : Decidable (quietNumbers.resend s) :=
  distinctNumbers.decidableResend s

end Decidability

inductive Life
  | unborn
  | waiting (key count : ℕ)
  | left (count : ℕ)

namespace Life

def count : Life → ℕ
  | .unborn => 0
  | .waiting _ n | .left n => n

def departures : Life → ℕ
  | .left _ => 1
  | _ => 0

end Life

def isQosTestType (t : CtrlType) : Prop := t = .qosTestingRequest ∨ t = .qosTestingStartNotify

def allowance (t : CtrlType) : ℕ :=
  match t with
  | .qosTestingRequest | .qosTestingStartNotify => 1
  | _ => maxRetxAttempt + 1

theorem allowance_le (t : CtrlType) : allowance t ≤ maxRetxAttempt + 1 := by
  cases t <;> decide

theorem allowance_pos (t : CtrlType) : 1 ≤ allowance t := by
  cases t <;> decide

/-- A message under `gone` has left and is about to be taken out. -/
structure Lives (s : Endpoint) (life : ℕ → Life) (kind : ℕ → CtrlType) (gone : Option ℕ) :
    Prop where
  unborn : ∀ ident, life ident = .unborn ↔ s.idents ≤ ident
  key : ∀ (key : ℕ) (item : TexedCtrQueueItem), s.txedCtrQueue[key]? = some item →
    key ∈ item.csnToTxtimeMap ∧ item.ident < s.idents ∧
      item.mxControlHeader.type = kind item.ident
  queue : ∀ (key : ℕ) (item : TexedCtrQueueItem), s.txedCtrQueue[key]? = some item →
    some key ≠ gone → life item.ident = .waiting key item.csnToTxtimeMap.size
  waiting : ∀ ident key n, life ident = .waiting key n → some key ≠ gone ∧
    s.expiries.count key = 1 ∧
    ∃ item : TexedCtrQueueItem, s.txedCtrQueue[key]? = some item ∧ item.ident = ident
  counts : ∀ ident, s.transmissions ident = (life ident).count ∧
    s.departures ident = (life ident).departures ∧ (life ident).count ≤ allowance (kind ident)
  types : ∀ ident copies, .sent ident copies ∈ s.log → ident < s.idents ∧
    ∀ h ∈ copies, h.type = kind ident
  gone_waits : ∀ key ∈ gone, ∃ item : TexedCtrQueueItem, s.txedCtrQueue[key]? = some item

section Log
variable (s : Endpoint) (i ident : ℕ) (copies : List MxControlHeader)

theorem transmissions_append (rec : CtrlRecord) :
    (s.log ++ [rec]).countP (sendsOf i) = s.transmissions i + (sendsOf i rec).toNat := by
  rw [List.countP_append, List.countP_singleton]
  cases sendsOf i rec <;> rfl

theorem departures_append (rec : CtrlRecord) :
    (s.log ++ [rec]).countP (leavesOf i) = s.departures i + (leavesOf i rec).toNat := by
  rw [List.countP_append, List.countP_singleton]
  cases leavesOf i rec <;> rfl

theorem copies_type (header : MxControlHeader) : ∀ h ∈ s.copies header, h.type = header.type := by
  intro h hm
  unfold copies at hm
  cases ht : header.type with
  | tsu =>
    simp only [ht, List.mem_map] at hm
    obtain ⟨p, -, rfl⟩ := hm
    rfl
  | _ =>
    simp only [ht, List.mem_singleton] at hm
    subst hm
    first | rfl | exact ht

end Log

theorem times_singleton_size (k v : ℕ) : ((∅ : Std.TreeMap ℕ ℕ).insert k v).size = 1 := by
  rw [Std.TreeMap.size_insert]
  simp

namespace Lives
variable {s s' : Endpoint} {life : ℕ → Life} {kind : ℕ → CtrlType} {gone : Option ℕ}
variable {csn : ℕ} {item : TexedCtrQueueItem}

theorem congr (h : Lives s life kind gone) (hq : s'.txedCtrQueue = s.txedCtrQueue)
    (hx : ∀ key, s.txedCtrQueue[key]? ≠ none → s'.expiries.count key = s.expiries.count key)
    (hi : s'.idents = s.idents) (hl : s'.log = s.log) : Lives s' life kind gone := by
  refine ⟨?_, ?_, ?_, ?_, ?_, ?_, ?_⟩
  · rw [hi]; exact h.unborn
  · rw [hq, hi]; exact h.key
  · rw [hq]; exact h.queue
  · intro ident key n hw
    obtain ⟨hg, hc, item, hk, hid⟩ := h.waiting ident key n hw
    exact ⟨hg, (hx key (by simp [hk])).trans hc, item, hq ▸ hk, hid⟩
  · simp only [transmissions, departures, hl]; exact h.counts
  · rw [hl, hi]; exact h.types
  · rw [hq]; exact h.gone_waits

theorem key_ne (h : Lives s life kind gone) {key n : ℕ} (hq : s.txedCtrQueue[key]? = some item)
    (hn : Unrecorded s n) : key ≠ n :=
  fun heq => hn key item hq (heq ▸ (h.key key item hq).1)

theorem sendCtrlMsg (h : Lives s life kind gone) (header : MxControlHeader) (forwarded : Bool)
    (hun : Unrecorded s header.sequenceNumber) (hquiet : header.sequenceNumber ∉ s.expiries) :
    Lives (s.sendCtrlMsg header forwarded)
      (Function.update life s.idents (.waiting header.sequenceNumber 1))
      (Function.update kind s.idents header.type) gone := by
  have hold : ∀ {α : Type} (f : ℕ → α) (v : α) (i : ℕ), i < s.idents →
      Function.update f s.idents v i = f i :=
    fun f v i hi => Function.update_of_ne (Nat.ne_of_lt hi) _ _
  refine ⟨?_, ?_, ?_, ?_, ?_, ?_, ?_⟩
  · intro i
    show _ ↔ s.idents + 1 ≤ i
    by_cases hi : i = s.idents
    · subst hi
      simp
    · rw [Function.update_of_ne hi, h.unborn i]
      omega
  · intro key item hq
    rcases insert_some hq with ⟨rfl, rfl⟩ | ⟨-, hq⟩
    · refine ⟨mem_times_singleton.mpr rfl, Nat.lt_succ_self s.idents, ?_⟩
      rw [Function.update_self]
    · obtain ⟨hk, hi, ht⟩ := h.key key item hq
      exact ⟨hk, Nat.lt_succ_of_lt hi, ht.trans (hold _ _ _ hi).symm⟩
  · intro key item hq hg
    rcases insert_some hq with ⟨rfl, rfl⟩ | ⟨-, hq⟩
    · rw [Function.update_self]
      exact congrArg (Life.waiting _) (times_singleton_size _ _).symm
    · exact (hold _ _ _ (h.key key item hq).2.1).trans (h.queue key item hq hg)
  · intro i key n hw
    by_cases hi : i = s.idents
    · subst hi
      rw [Function.update_self, Life.waiting.injEq] at hw
      obtain ⟨rfl, rfl⟩ := hw
      refine ⟨?_, ?_, ⟨header, (∅ : Std.TreeMap ℕ ℕ).insert header.sequenceNumber s.now,
        s.idents, forwarded⟩, ?_, rfl⟩
      · intro hg
        obtain ⟨item, hq⟩ := h.gone_waits _ hg.symm
        exact h.key_ne hq hun rfl
      · show (s.expiries ++ [header.sequenceNumber]).count _ = 1
        rw [List.count_append, List.count_eq_zero_of_not_mem hquiet, List.count_singleton_self]
      · show (s.txedCtrQueue.insert _ _)[_]? = _
        rw [insert_get, if_pos rfl]
    · rw [Function.update_of_ne hi] at hw
      obtain ⟨hg, hc, item, hq, hid⟩ := h.waiting i key n hw
      have hne := h.key_ne hq hun
      refine ⟨hg, ?_, item, ?_, hid⟩
      · show (s.expiries ++ [header.sequenceNumber]).count _ = 1
        rw [List.count_append, hc, List.count_singleton, if_neg (by simpa using hne.symm)]
      · show (s.txedCtrQueue.insert _ _)[_]? = _
        rw [insert_get, if_neg hne.symm, hq]
  · intro i
    obtain ⟨ht, hd, hb⟩ := h.counts i
    have htr : (s.sendCtrlMsg header forwarded).transmissions i =
        s.transmissions i + (s.idents == i).toNat := transmissions_append s i _
    have hdep : (s.sendCtrlMsg header forwarded).departures i = s.departures i :=
      departures_append s i (.sent s.idents (s.copies header))
    rw [htr, hdep, ht, hd]
    by_cases hi : i = s.idents
    · subst hi
      have hun' : life s.idents = .unborn := (h.unborn _).mpr (Nat.le_refl _)
      simp [hun', Life.count, Life.departures, allowance_pos]
    · rw [Function.update_of_ne hi, Function.update_of_ne hi]
      simp [Ne.symm hi, hb]
  · intro i copies hm
    rcases List.mem_append.mp hm with hm | hm
    · obtain ⟨hi, ht⟩ := h.types i copies hm
      exact ⟨Nat.lt_succ_of_lt hi, fun c hc => (ht c hc).trans (hold _ _ _ hi).symm⟩
    · obtain ⟨rfl, rfl⟩ : i = s.idents ∧ copies = s.copies header := by simpa using hm
      refine ⟨Nat.lt_succ_self _, fun c hc => ?_⟩
      rw [Function.update_self]
      exact copies_type s header c hc
  · intro key hg
    obtain ⟨item, hq⟩ := h.gone_waits key hg
    refine ⟨item, ?_⟩
    show (s.txedCtrQueue.insert _ _)[_]? = _
    rw [insert_get, if_neg (h.key_ne hq hun).symm, hq]

theorem leave (h : Lives s life kind none) (hq : s.txedCtrQueue[csn]? = some item)
    (s' : Endpoint) (rec : CtrlRecord) (hs : ∀ i, sendsOf i rec = false)
    (hr : ∀ i, leavesOf i rec = (item.ident == i))
    (hq' : s'.txedCtrQueue = s.txedCtrQueue) (hi' : s'.idents = s.idents)
    (hl' : s'.log = s.log ++ [rec])
    (hx' : ∀ key, key ≠ csn → s'.expiries.count key = s.expiries.count key) :
    Lives s' (Function.update life item.ident (.left item.csnToTxtimeMap.size)) kind
      (some csn) := by
  have hlife := h.queue csn item hq (by simp)
  have hother : ∀ key (item' : TexedCtrQueueItem), s.txedCtrQueue[key]? = some item' → key ≠ csn →
      item'.ident ≠ item.ident := by
    intro key item' hk hne heq
    have hw := h.queue key item' hk (by simp)
    rw [heq, hlife, Life.waiting.injEq] at hw
    exact hne hw.1.symm
  refine ⟨?_, ?_, ?_, ?_, ?_, ?_, ?_⟩
  · intro i
    rw [hi']
    by_cases hi : i = item.ident
    · subst hi
      have hlt := (h.key csn item hq).2.1
      simp only [Function.update_self, reduceCtorEq, false_iff]
      omega
    · rw [Function.update_of_ne hi, h.unborn i]
  · rw [hq', hi']; exact h.key
  · intro key item' hk hg
    rw [hq'] at hk
    have hne : key ≠ csn := fun heq => hg (by rw [heq])
    rw [Function.update_of_ne (hother key item' hk hne)]
    exact h.queue key item' hk (by simp)
  · intro i key n hw
    by_cases hi : i = item.ident
    · subst hi
      simp at hw
    · rw [Function.update_of_ne hi] at hw
      obtain ⟨-, hc, item', hk, hid⟩ := h.waiting i key n hw
      have hne : key ≠ csn := by
        rintro rfl
        rw [hq, Option.some.injEq] at hk
        exact hi (hid ▸ hk ▸ rfl)
      exact ⟨by simpa using hne, (hx' key hne).trans hc, item', hq' ▸ hk, hid⟩
  · intro i
    obtain ⟨ht, hd, hb⟩ := h.counts i
    have htr : s'.transmissions i = s.transmissions i := by
      rw [transmissions, hl', transmissions_append, hs]
      rfl
    have hdep : s'.departures i = s.departures i + (item.ident == i).toNat := by
      rw [departures, hl', departures_append, hr]
    rw [htr, hdep, ht, hd]
    by_cases hi : i = item.ident
    · subst hi
      rw [hlife] at hb ⊢
      simpa [Life.count, Life.departures] using hb
    · rw [Function.update_of_ne hi]
      simp [Ne.symm hi, hb]
  · intro i copies hm
    rw [hl'] at hm
    rw [hi']
    rcases List.mem_append.mp hm with hm | hm
    · exact h.types i copies hm
    · obtain rfl := List.mem_singleton.mp hm
      exact absurd (hs i) (by simp [sendsOf])
  · intro key hg
    obtain rfl := Option.some.inj hg
    exact ⟨item, hq' ▸ hq⟩

theorem erase (h : Lives s life kind (some csn)) :
    Lives { s with txedCtrQueue := s.txedCtrQueue.erase csn } life kind none := by
  refine ⟨h.unborn, ?_, ?_, ?_, h.counts, h.types, ?_⟩
  · exact fun key item hq => h.key key item (erase_some hq).2
  · intro key item hq _
    obtain ⟨hne, hq⟩ := erase_some hq
    exact h.queue key item hq (by simpa using hne)
  · intro i key n hw
    obtain ⟨hg, hc, item, hq, hid⟩ := h.waiting i key n hw
    have hne : csn ≠ key := fun heq => hg (by rw [heq])
    refine ⟨by simp, hc, item, ?_, hid⟩
    show (s.txedCtrQueue.erase csn)[key]? = _
    rw [erase_get, if_neg hne, hq]
  · exact fun key hg => absurd hg (by simp)

theorem renewItem_size (s : Endpoint) (hn : s.mxCtrSeqNumber ∉ item.csnToTxtimeMap) :
    (s.renewItem item).csnToTxtimeMap.size = item.csnToTxtimeMap.size + 1 := by
  have hc : item.csnToTxtimeMap.contains s.mxCtrSeqNumber = false := by
    rwa [← Bool.not_eq_true, Std.TreeMap.contains_iff_mem]
  simp [renewItem, Std.TreeMap.size_insert, hn]

theorem renewItem_type (s : Endpoint) (item : TexedCtrQueueItem) :
    (s.renewItem item).mxControlHeader.type = item.mxControlHeader.type := by
  simp only [renewItem]
  split_ifs <;> rfl

theorem resend (h : Lives s life kind none) (hq : s.txedCtrQueue[csn]? = some item)
    (hx : ¬ exhausted item) (ht : ¬ isQosTest item) (hun : Unrecorded s s.mxCtrSeqNumber) :
    Lives ((s.fire csn).resend csn item)
      (Function.update life item.ident (.waiting csn (item.csnToTxtimeMap.size + 1))) kind
      none := by
  have hlife := h.queue csn item hq (by simp)
  obtain ⟨hkey, hlt, htype⟩ := h.key csn item hq
  obtain ⟨-, hcount, -⟩ := h.waiting _ _ _ hlife
  have hsize := renewItem_size (s.fire csn) (hun csn item hq)
  have hget : ∀ key, ((s.fire csn).resend csn item).txedCtrQueue[key]? =
      if csn = key then some ((s.fire csn).renewItem item) else s.txedCtrQueue[key]? :=
    fun key => insert_get
  refine ⟨?_, ?_, ?_, ?_, ?_, ?_, ?_⟩
  · intro i
    show _ ↔ s.idents ≤ i
    by_cases hi : i = item.ident
    · subst hi
      simp only [Function.update_self, reduceCtorEq, false_iff]
      omega
    · rw [Function.update_of_ne hi, h.unborn i]
  · intro key item' hk
    rcases insert_some hk with ⟨rfl, rfl⟩ | ⟨-, hk⟩
    · exact ⟨mem_times_insert.mpr (.inr hkey), hlt, (renewItem_type _ item).trans htype⟩
    · exact h.key key item' hk
  · intro key item' hk _
    rcases insert_some hk with ⟨rfl, rfl⟩ | ⟨hne, hk⟩
    · show Function.update life item.ident _ item.ident = _
      rw [Function.update_self, hsize]
    · have hw := h.queue key item' hk (by simp)
      have hi : item'.ident ≠ item.ident := by
        intro heq
        rw [heq, hlife, Life.waiting.injEq] at hw
        exact hne hw.1.symm
      rw [Function.update_of_ne hi, hw]
  · intro i key n hw
    refine ⟨by simp, ?_⟩
    show (s.expiries.erase csn ++ [csn]).count key = 1 ∧ _
    by_cases hi : i = item.ident
    · subst hi
      rw [Function.update_self, Life.waiting.injEq] at hw
      obtain ⟨rfl, rfl⟩ := hw
      refine ⟨?_, (s.fire csn).renewItem item, by rw [hget, if_pos rfl], rfl⟩
      rw [List.count_append, List.count_erase_self, hcount, List.count_singleton_self]
    · rw [Function.update_of_ne hi] at hw
      obtain ⟨-, hc, item', hk, hid⟩ := h.waiting i key n hw
      have hne : csn ≠ key := by
        rintro rfl
        rw [hq, Option.some.injEq] at hk
        exact hi (hid ▸ hk ▸ rfl)
      refine ⟨?_, item', by rw [hget, if_neg hne, hk], hid⟩
      rw [List.count_append, List.count_erase_of_ne hne.symm, hc, List.count_singleton,
        if_neg (by simpa using hne)]
  · intro i
    obtain ⟨hti, hd, hb⟩ := h.counts i
    have htr : ((s.fire csn).resend csn item).transmissions i =
        s.transmissions i + (item.ident == i).toNat :=
      transmissions_append s i (.sent item.ident _)
    have hdep : ((s.fire csn).resend csn item).departures i = s.departures i :=
      departures_append s i (.sent item.ident _)
    rw [htr, hdep, hti, hd]
    by_cases hi : i = item.ident
    · subst hi
      have hall : allowance (kind item.ident) = maxRetxAttempt + 1 := by
        rw [← htype]
        unfold isQosTest at ht
        unfold allowance
        split <;> simp_all
      have hle : item.csnToTxtimeMap.size ≤ maxRetxAttempt := Nat.not_lt.mp hx
      rw [hlife, Function.update_self, hall]
      simp only [Life.count, Life.departures, BEq.rfl, Bool.toNat_true, true_and]
      omega
    · rw [Function.update_of_ne hi]
      simp [Ne.symm hi, hb]
  · intro i copies hm
    rcases List.mem_append.mp hm with hm | hm
    · exact h.types i copies hm
    · obtain ⟨rfl, rfl⟩ := CtrlRecord.sent.inj (List.mem_singleton.mp hm)
      refine ⟨hlt, fun c hc => ?_⟩
      exact ((copies_type _ _ c hc).trans (renewItem_type _ item)).trans htype
  · exact fun key hg => absurd hg (by simp)

end Lives

theorem unrecorded_of_toList {s : Endpoint} {n : ℕ}
    (h : ∀ e ∈ s.txedCtrQueue.toList, n ∉ e.2.csnToTxtimeMap) : Unrecorded s n :=
  fun key item hq => h (key, item) (Std.TreeMap.mem_toList_iff_getElem?_eq_some.mpr hq)

theorem lives_new {gone : Option ℕ} {s : Endpoint} (header : MxControlHeader)
    (h : ∃ life kind, Lives s life kind gone) (hr : quietNumbers.new s) :
    ∃ life kind, Lives (s.sendNew header) life kind gone := by
  obtain ⟨life, kind, h⟩ := h
  have ht : Lives s.takeNumber life kind gone := h.congr rfl (fun _ _ => rfl) rfl rfl
  exact ⟨_, _, ht.sendCtrlMsg _ _ (unrecorded_of_toList hr.1) hr.2⟩

theorem lives_keeps : Keeps quietNumbers fun s => ∃ life kind, Lives s life kind none := by
  refine ⟨?_, lives_new, ?_, ?_, ?_, ?_⟩
  · rintro s s' hs ⟨life, kind, h⟩
    exact ⟨life, kind, h.congr hs.queue (fun _ _ => by rw [hs.expiries]) hs.idents hs.log⟩
  · rintro s header ⟨life, kind, h⟩ hr
    exact ⟨_, _, h.sendCtrlMsg { header with reverseFlag := 0 } true
      (unrecorded_of_toList hr.1) hr.2⟩
  · rintro s csn ⟨life, kind, h⟩ - hq
    refine ⟨life, kind, h.congr rfl (fun key hk => ?_) rfl rfl⟩
    have hne : key ≠ csn := fun heq => hk (heq ▸ hq)
    exact List.count_erase_of_ne hne
  · rintro s csn item a ⟨life, kind, h⟩ - hq hr
    have hq' : (s.fire csn).txedCtrQueue[csn]? = some item := hq
    have hfire : ∀ key, key ≠ csn → (s.fire csn).expiries.count key = s.expiries.count key :=
      fun key hne => List.count_erase_of_ne hne
    simp only [retxCtrlMsgExpires, hq', Rule.expiry] at hr ⊢
    split_ifs at hr ⊢ with hx hqos
    · have hmark := h.leave hq ((s.fire csn).markGivenUp item)
        (.givenUp item.ident item.mxControlHeader item.mxControlHeader.connectionId)
        (fun _ => rfl) (fun _ => rfl) rfl rfl rfl hfire
      simp only [giveUp]
      split_ifs with hasks
      · obtain ⟨life', kind', h'⟩ := Rule.newAll_keeps lives_new ⟨_, _, hmark⟩ (hr hasks)
        exact ⟨life', kind', h'.erase⟩
      · exact ⟨_, _, hmark.erase⟩
    · have hmark := h.leave hq
        { s.fire csn with log := s.log ++ [.testFailed item.ident] } (.testFailed item.ident)
        (fun _ => rfl) (fun _ => rfl) rfl rfl rfl hfire
      exact ⟨_, _, hmark.erase.congr rfl (fun _ _ => rfl) rfl rfl⟩
    · exact ⟨_, _, h.resend hq hx hqos (unrecorded_of_toList (hr hqos))⟩
  · rintro s csn key item sendTime ⟨life, kind, h⟩ hl
    have hmark := h.leave (ackLookup_some hl)
      { s with log := s.log ++ [.acknowledged item.ident sendTime] }
      (.acknowledged item.ident sendTime) (fun _ => rfl) (fun _ => rfl) rfl rfl rfl
      (fun _ _ => rfl)
    exact ⟨_, _, hmark.erase⟩

section Progress
variable {s : Endpoint} {csn : ℕ} {item : TexedCtrQueueItem}

theorem departures_sendAll (s : Endpoint) (headers : List MxControlHeader) (i : ℕ) :
    (s.sendAll headers).departures i = s.departures i := by
  induction headers generalizing s with
  | nil => rfl
  | cons header headers ih =>
    have hone : (s.sendNew header).departures i = s.departures i :=
      departures_append s i (.sent s.idents _)
    exact (ih (s.sendNew header)).trans hone

theorem expire_progress (hq : s.txedCtrQueue[csn]? = some item) (a : Answers) :
    (s.next (.expire csn a)).departures item.ident = s.departures item.ident + 1 ∨
      (s.next (.expire csn a)).transmissions item.ident = s.transmissions item.ident + 1 := by
  have hq' : (s.fire csn).txedCtrQueue[csn]? = some item := hq
  simp only [next, retxCtrlMsgExpires, hq']
  split_ifs with hx hqos
  · left
    have hmark : ((s.fire csn).markGivenUp item).departures item.ident =
        s.departures item.ident + 1 :=
      (departures_append s item.ident (.givenUp item.ident _ _)).trans (by simp [leavesOf])
    simp only [giveUp]
    split_ifs
    · exact (departures_sendAll _ _ _).trans hmark
    · exact hmark
  · left
    exact (departures_append s item.ident (.testFailed item.ident)).trans (by simp [leavesOf])
  · right
    exact (transmissions_append s item.ident (.sent item.ident _)).trans (by simp [sendsOf])

end Progress

/-- Every message is transmitted at most six times, a QoS test once. It waits with one
expiry scheduled under its first CSN, which sends it again or takes it out, or it has left
once, answered or failed. -/
structure ResolvedOnce (s : Endpoint) : Prop where
  bounded : ∀ ident, s.transmissions ident ≤ maxRetxAttempt + 1
  tests : ∀ ident copies, .sent ident copies ∈ s.log →
    ∀ h ∈ copies, h.type = .qosTestingRequest ∨ h.type = .qosTestingStartNotify →
      s.transmissions ident = 1
  once : ∀ ident < s.idents,
    (s.departures ident = 0 ∧ ∃ (key : ℕ) (item : TexedCtrQueueItem),
      s.txedCtrQueue[key]? = some item ∧ item.ident = ident ∧ key ∈ item.csnToTxtimeMap ∧
        s.expiries.count key = 1) ∨
    (s.departures ident = 1 ∧ ∀ (key : ℕ) (item : TexedCtrQueueItem),
      s.txedCtrQueue[key]? = some item → item.ident ≠ ident)
  exclusive : ∀ ident sendTime header cid, .acknowledged ident sendTime ∈ s.log →
    .givenUp ident header cid ∉ s.log ∧ .testFailed ident ∉ s.log
  progress : ∀ (key : ℕ) (item : TexedCtrQueueItem) (a : Answers),
    s.txedCtrQueue[key]? = some item →
      (s.next (.expire key a)).departures item.ident = s.departures item.ident + 1 ∨
      (s.next (.expire key a)).transmissions item.ident = s.transmissions item.ident + 1

theorem departures_two {s : Endpoint} (ident : ℕ) {rec rec' : CtrlRecord} (hne : rec ≠ rec')
    (hm : rec ∈ s.log) (hm' : rec' ∈ s.log) (hl : leavesOf ident rec) (hl' : leavesOf ident rec') :
    2 ≤ s.departures ident := by
  unfold departures
  rw [List.countP_eq_length_filter]
  have h1 : rec ∈ s.log.filter (leavesOf ident) := List.mem_filter.mpr ⟨hm, hl⟩
  have h2 : rec' ∈ s.log.filter (leavesOf ident) := List.mem_filter.mpr ⟨hm', hl'⟩
  match hf : s.log.filter (leavesOf ident) with
  | [] => simp [hf] at h1
  | [x] =>
    simp only [hf, List.mem_singleton] at h1 h2
    exact absurd (h1.trans h2.symm) hne
  | _ :: _ :: _ => simp

theorem Lives.resolvedOnce {s : Endpoint} {life : ℕ → Life} {kind : ℕ → CtrlType}
    (h : Lives s life kind none) : ResolvedOnce s := by
  have hone : ∀ ident, s.departures ident ≤ 1 := by
    intro ident
    rw [(h.counts ident).2.1]
    cases life ident <;> simp [Life.departures]
  refine ⟨?_, ?_, ?_, ?_, fun key item a hq => expire_progress hq a⟩
  · intro ident
    obtain ⟨ht, -, hb⟩ := h.counts ident
    rw [ht]
    exact hb.trans (allowance_le _)
  · intro ident copies hm header hh htype
    obtain ⟨ht, -, hb⟩ := h.counts ident
    have hkind := (h.types ident copies hm).2 header hh
    have hall : allowance (kind ident) = 1 := by
      rw [← hkind]
      rcases htype with hq | hq <;> rw [hq] <;> rfl
    have hpos : 0 < s.transmissions ident :=
      List.countP_pos_iff.mpr ⟨_, hm, by simp [sendsOf]⟩
    omega
  · intro ident hi
    obtain ⟨-, hd, -⟩ := h.counts ident
    cases hl : life ident with
    | unborn =>
      have := (h.unborn ident).mp hl
      omega
    | waiting key n =>
      obtain ⟨-, hc, item, hq, hid⟩ := h.waiting ident key n hl
      exact .inl ⟨by rw [hd, hl]; rfl, key, item, hq, hid, (h.key key item hq).1, hc⟩
    | left n =>
      refine .inr ⟨by rw [hd, hl]; rfl, fun key item hq hid => ?_⟩
      have hw := h.queue key item hq (by simp)
      rw [hid, hl] at hw
      exact Life.noConfusion hw
  · intro ident sendTime header cid hack
    have hle := hone ident
    constructor
    · intro hg
      have h2 := departures_two ident (by simp) hack hg (by simp [leavesOf])
        (by simp [leavesOf])
      omega
    · intro hg
      have h2 := departures_two ident (by simp) hack hg (by simp [leavesOf])
        (by simp [leavesOf])
      omega

theorem control_messages_resolved_once (config : EndpointConfig) (linkState : LinkState)
    (links : LinkIds) {es : List Event} {s : Endpoint}
    (h : (machine.restrict quietNumbers.Allows).Reaches (start config linkState links) es s) :
    ResolvedOnce s := by
  have hinit : ∃ life kind, Lives (start config linkState links) life kind none := by
    refine ⟨fun _ => .unborn, fun _ => .probe, ?_, ?_, ?_, ?_, ?_, ?_, ?_⟩
    · exact fun ident => ⟨fun _ => Nat.zero_le _, fun _ => rfl⟩
    · intro key item hq
      simp [start] at hq
    · intro key item hq
      simp [start] at hq
    · exact fun ident key n hw => Life.noConfusion hw
    · exact fun ident => ⟨rfl, rfl, Nat.zero_le _⟩
    · exact fun ident copies hm => absurd hm List.not_mem_nil
    · exact fun key hg => absurd hg (by simp)
  obtain ⟨life, kind, hl⟩ := lives_keeps.run hinit h
  exact hl.resolvedOnce

def ackFor (csn : ℕ) : MxControlHeader :=
  { type := .ack, connectionId := 2, sequenceNumber := csn }

theorem control_messages_resolved_once_probes :
    ResolvedOnce ((machine.restrict quietNumbers.Allows).exec qosServer
      [.probe 1, .recv (reverseTsu 9) {}, .recv (ackFor 0) {}, .expire 9 {}, .expire 0 {},
        .expire 1 {}, .recv (ackFor 3) {}]) :=
  control_messages_resolved_once _ _ _ (Machine.Permits.reaches (by decide +kernel))

/-- The turned TSU 1 is answered; its expiry is still scheduled when the server's own counter
gives 1 to a probe, which then has two. -/
theorem expiry_outlives_message :
    ∃ s, (machine.restrict distinctNumbers.Allows).Reaches qosServer
        [.recv (reverseTsu 1) {}, .recv (ackFor 1) {}, .probe 1] s ∧ ¬ ResolvedOnce s := by
  refine ⟨_, Machine.Permits.reaches (by decide +kernel), fun h => ?_⟩
  rcases h.once 2 (by decide +kernel) with ⟨-, key, item, hq, hid, -, hc⟩ | ⟨hd, -⟩
  · have htwo : ∀ e ∈ ((machine.restrict distinctNumbers.Allows).exec qosServer
        [.recv (reverseTsu 1) {}, .recv (ackFor 1) {}, .probe 1]).txedCtrQueue.toList,
        e.2.ident = 2 → ((machine.restrict distinctNumbers.Allows).exec qosServer
          [.recv (reverseTsu 1) {}, .recv (ackFor 1) {}, .probe 1]).expiries.count e.1 ≠ 1 := by
      decide +kernel
    exact htwo (key, item) (Std.TreeMap.mem_toList_iff_getElem?_eq_some.mpr hq) hid hc
  · exact absurd hd (by decide +kernel)

end Endpoint
end NetGymSim.Gma

import NetGymSim.Gma.ReleaseRules

/-!
# Sequence numbers in the reordering queues

A packet's payload is its index, the position of its SN in the sender's unwrapped
sequence. `nextIndex` is the index after the newest packet handed on. `Queues` says
what the queues of all links hold relative to it: every queue is increasing, a
marked packet follows its predecessor with nothing between them that could still
arrive, and the end of a queue is the last index seen on its link or a number
already passed. It is a statement about the queues alone, so that each release
path and each arrival is one short lemma.
-/

namespace NetGymSim.Gma
open NetGymSim.Lib

theorem snDiff_residues {i j : ℕ} (hij : i < j + 8388608) (hji : j < i + 8388608) :
    snDiff (i % 16777216 : ℕ) (j % 16777216 : ℕ) = (i : ℤ) - j := by
  have h := wrapDiff_residues (i := i) (j := j) (show 0 < 8388608 by norm_num) (by omega)
    (by omega)
  rw [show (2 : ℤ) * 8388608 = 16777216 by norm_num] at h
  rw [← h, snDiff]
  push_cast
  rfl

def nextIndex (log : List (Delivery ℕ)) : ℕ :=
  log.foldl (fun next d => if d.path = .late then next else d.packet + 1) 0

theorem nextIndex_append (log : List (Delivery ℕ)) (d : Delivery ℕ) :
    nextIndex (log ++ [d]) = if d.path = .late then nextIndex log else d.packet + 1 := by
  simp [nextIndex]

def Receiver.nextIndex (r : Receiver ℕ) : ℕ := Gma.nextIndex r.forwarded

/-- An increasing queue from `lo` on, whose marked items have only gaps before them. -/
def Chain (gap : ℕ → Prop) (next : ℕ) : ℕ → List (RxQueueItem ℕ) → Prop
  | _, [] => True
  | lo, item :: rest =>
      lo ≤ item.packet ∧
        (item.inOrder → ∀ j, lo ≤ j → next ≤ j → j < item.packet → gap j) ∧
        Chain gap next (item.packet + 1) rest

namespace Chain
variable {gap : ℕ → Prop} {next lo : ℕ} {items : List (RxQueueItem ℕ)}

theorem mono {gap' : ℕ → Prop} {next' : ℕ} (hg : ∀ j, gap j → gap' j) (hn : next ≤ next')
    (h : Chain gap next lo items) : Chain gap' next' lo items := by
  induction items generalizing lo with
  | nil => trivial
  | cons item rest ih =>
    exact ⟨h.1, fun hi j h1 h2 h3 => hg j (h.2.1 hi j h1 (hn.trans h2) h3), ih h.2.2⟩

theorem le (h : Chain gap next lo items) {item : RxQueueItem ℕ} (hi : item ∈ items) :
    lo ≤ item.packet := by
  induction items generalizing lo with
  | nil => cases hi
  | cons first rest ih =>
    rcases List.mem_cons.mp hi with rfl | hr
    · exact h.1
    · have h1 := h.1
      have h2 := ih h.2.2 hr
      omega

theorem concat {item : RxQueueItem ℕ} (h : Chain gap next lo items)
    (hlast : ∀ l, items.getLast? = some l → l.packet < item.packet) (hlo : lo ≤ item.packet)
    (hgap : item.inOrder → ∀ j, lo ≤ j → (∀ l, items.getLast? = some l → l.packet < j) →
      next ≤ j → j < item.packet → gap j) : Chain gap next lo (items ++ [item]) := by
  induction items generalizing lo with
  | nil =>
    exact ⟨hlo, fun hi j h1 h2 h3 => hgap hi j h1 (by simp) h2 h3, trivial⟩
  | cons first rest ih =>
    have hfirst : first.packet + 1 ≤ item.packet := by
      cases rest with
      | nil => exact hlast first rfl
      | cons second rest =>
        obtain ⟨l, hl⟩ : ∃ l, (second :: rest).getLast? = some l :=
          ⟨_, List.getLast?_eq_some_getLast (by simp)⟩
        have h1 := hlast l (by rw [List.getLast?_cons_cons]; exact hl)
        have h2 := h.2.2.le (List.mem_of_getLast? hl)
        omega
    refine ⟨h.1, h.2.1, ih h.2.2 ?_ hfirst ?_⟩
    · intro l hl
      refine hlast l ?_
      cases rest with
      | nil => cases hl
      | cons second rest => rw [List.getLast?_cons_cons]; exact hl
    · intro hi j h1 h2 h3 h4
      refine hgap hi j (by have := h.1; omega) ?_ h3 h4
      intro l hl
      cases rest with
      | nil =>
        obtain rfl : first = l := Option.some.inj hl
        omega
      | cons second rest => exact h2 l (by rw [List.getLast?_cons_cons] at hl; exact hl)

end Chain

structure Queues (gap came : ℕ → ℕ → Prop) (seen : ℕ → ℕ) (next : ℕ)
    (queue : ℕ → List (RxQueueItem ℕ)) : Prop where
  items : ∀ cid, ∀ item ∈ queue cid,
    item.gmaHeader.sequenceNumber = item.packet % 16777216 ∧ item.gmaHeader.connectionId = cid ∧
      item.packet < seen cid ∧ came cid item.packet
  chain : ∀ cid, ∃ lo ≤ next, Chain (gap cid) next lo (queue cid)
  tail : ∀ cid, seen cid ≤ next ∨
    ∃ last, (queue cid).getLast? = some last ∧ last.packet + 1 = seen cid

namespace Queues
variable {gap came : ℕ → ℕ → Prop} {seen : ℕ → ℕ} {next next' cid : ℕ}
  {queue : ℕ → List (RxQueueItem ℕ)} {item : RxQueueItem ℕ} {rest : List (RxQueueItem ℕ)}

theorem mono {gap' came' : ℕ → ℕ → Prop} (h : Queues gap came seen next queue)
    (hg : ∀ c j, gap c j → gap' c j) (hc : ∀ c j, came c j → came' c j) :
    Queues gap' came' seen next queue where
  items c q hq := by
    obtain ⟨h1, h2, h3, h4⟩ := h.items c q hq
    exact ⟨h1, h2, h3, hc c _ h4⟩
  chain c := by
    obtain ⟨lo, hlo, hch⟩ := h.chain c
    exact ⟨lo, hlo, hch.mono (hg c) le_rfl⟩
  tail := h.tail

theorem advance (h : Queues gap came seen next queue) (hn : next ≤ next') :
    Queues gap came seen next' queue where
  items := h.items
  chain c := by
    obtain ⟨lo, hlo, hch⟩ := h.chain c
    exact ⟨lo, hlo.trans hn, hch.mono (fun _ hj => hj) hn⟩
  tail c := (h.tail c).imp_left fun hle => hle.trans hn

theorem pop (h : Queues gap came seen next queue) (hq : queue cid = item :: rest)
    (hn : next ≤ next') (hi : item.packet < next') :
    Queues gap came seen next' (Function.update queue cid rest) where
  items c q hmem := by
    by_cases hc : c = cid
    · subst hc
      rw [Function.update_self] at hmem
      exact h.items c q (by rw [hq]; exact List.mem_cons_of_mem _ hmem)
    · rw [Function.update_of_ne hc] at hmem
      exact h.items c q hmem
  chain c := by
    by_cases hc : c = cid
    · subst hc
      obtain ⟨lo, hlo, hch⟩ := h.chain c
      rw [hq] at hch
      rw [Function.update_self]
      exact ⟨item.packet + 1, hi, hch.2.2.mono (fun _ hj => hj) hn⟩
    · rw [Function.update_of_ne hc]
      exact (h.advance hn).chain c
  tail c := by
    by_cases hc : c = cid
    · subst hc
      rw [Function.update_self]
      rcases h.tail c with hle | ⟨last, hlast, hl⟩
      · exact .inl (hle.trans hn)
      · rw [hq] at hlast
        cases rest with
        | nil =>
          obtain rfl : item = last := Option.some.inj hlast
          exact .inl (by omega)
        | cons second rest =>
          rw [List.getLast?_cons_cons] at hlast
          exact .inr ⟨last, hlast, hl⟩
    · rw [Function.update_of_ne hc]
      exact (h.advance hn).tail c

theorem see (h : Queues gap came seen next queue) {m : ℕ} (hn : next ≤ next') (hm : m < next')
    (hs : seen cid ≤ m) : Queues gap came (Function.update seen cid (m + 1)) next' queue where
  items c q hmem := by
    obtain ⟨h1, h2, h3, h4⟩ := h.items c q hmem
    refine ⟨h1, h2, ?_, h4⟩
    by_cases hc : c = cid
    · subst hc
      rw [Function.update_self]
      omega
    · rwa [Function.update_of_ne hc]
  chain := (h.advance hn).chain
  tail c := by
    by_cases hc : c = cid
    · subst hc
      rw [Function.update_self]
      exact .inl hm
    · rw [Function.update_of_ne hc]
      exact (h.advance hn).tail c

theorem push (h : Queues gap came seen next queue) (item : RxQueueItem ℕ)
    (hs : seen cid ≤ item.packet)
    (hn : next ≤ item.packet)
    (hsn : item.gmaHeader.sequenceNumber = item.packet % 16777216)
    (hcid : item.gmaHeader.connectionId = cid) (hcame : came cid item.packet)
    (hgap : item.inOrder → ∀ j, seen cid ≤ j → j < item.packet → gap cid j) :
    Queues gap came (Function.update seen cid (item.packet + 1)) next
      (Function.update queue cid (queue cid ++ [item])) where
  items c q hmem := by
    by_cases hc : c = cid
    · subst hc
      rw [Function.update_self] at hmem ⊢
      rcases List.mem_append.mp hmem with hm | hm
      · obtain ⟨h1, h2, h3, h4⟩ := h.items c q hm
        exact ⟨h1, h2, by omega, h4⟩
      · rw [List.mem_singleton.mp hm]
        exact ⟨hsn, hcid, Nat.lt_succ_self _, hcame⟩
    · rw [Function.update_of_ne hc] at hmem ⊢
      exact h.items c q hmem
  chain c := by
    by_cases hc : c = cid
    · subst hc
      rw [Function.update_self]
      obtain ⟨lo, hlo, hch⟩ := h.chain c
      refine ⟨lo, hlo, hch.concat ?_ (hlo.trans hn) ?_⟩
      · intro l hl
        have := (h.items c l (List.mem_of_getLast? hl)).2.2.1
        omega
      · intro hi j _ hlast hj hjm
        refine hgap hi j ?_ hjm
        rcases h.tail c with hle | ⟨last, hl, hseen⟩
        · exact hle.trans hj
        · have := hlast last hl
          omega
    · rw [Function.update_of_ne hc]
      exact h.chain c
  tail c := by
    by_cases hc : c = cid
    · subst hc
      rw [Function.update_self, Function.update_self]
      exact .inr ⟨item, by simp, rfl⟩
    · rw [Function.update_of_ne hc, Function.update_of_ne hc]
      exact h.tail c

theorem seen_le_of_nil (h : Queues gap came seen next queue) (hq : queue cid = []) :
    seen cid ≤ next := by
  rcases h.tail cid with hle | ⟨last, hl, _⟩
  · exact hle
  · rw [hq] at hl
    cases hl

theorem front_le (h : Queues gap came seen next queue) (hq : queue cid = item :: rest)
    {other : RxQueueItem ℕ} (ho : other ∈ rest) : item.packet < other.packet := by
  obtain ⟨lo, _, hch⟩ := h.chain cid
  rw [hq] at hch
  exact hch.2.2.le ho

theorem marked_front (h : Queues gap came seen next queue) (hq : queue cid = item :: rest)
    (hi : item.inOrder) {j : ℕ} (hj : next ≤ j) (hlt : j < item.packet) : gap cid j := by
  obtain ⟨lo, hlo, hch⟩ := h.chain cid
  rw [hq] at hch
  exact hch.2.1 hi j (hlo.trans hj) hj hlt

end Queues
end NetGymSim.Gma

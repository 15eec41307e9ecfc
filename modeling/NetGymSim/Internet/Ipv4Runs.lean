import NetGymSim.Internet.Ipv4Reassembly
import Mathlib.Data.List.Induction
import Mathlib.Data.List.TakeWhile

/-!
# Fragments on their way and at the receiver

A datagram travels: any of its fragments may be cut again, for any link. The receiver sees
the fragments in any order and any number of times, between datagrams of others. What it
holds of the datagram is the sorted list of the fragments that arrived, and it is complete
exactly when the last missing one comes in.
-/

namespace NetGymSim.Internet.Ipv4L3Protocol
open Lib Fragments
variable {α : Type*} {k : ℕ × ℕ} {off n : ℕ} {more : Bool}
variable {fs gs after before : List (Datagram α)} {f g : Datagram α}

/-- The fragments, in stream order, that the datagram may be in on its way. -/
inductive Travels (d : Datagram α) : List (Datagram α) → Prop
  | sent : Travels d [d]
  | hop {before after gs : List (Datagram α)} {f : Datagram α} (mtu : ℕ) :
      Travels d (before ++ f :: after) → 68 ≤ mtu → mtu < 4294967296 →
      doFragmentation f mtu = some gs → Travels d (before ++ gs ++ after)

def receive (m : Collected α) (es : List (Datagram α)) : Collected α :=
  es.foldl (fun m e => (processFragment m e).1) m

section Chain

theorem Chained.fits (h : Chained k 0 more fs) (hfit : (content fs).length ≤ 65515) (hm : f ∈ fs) :
    Stands k f.header.fragmentOffset f ∧
      f.header.fragmentOffset + f.payload.length ≤ 65515 := by
  obtain ⟨before, after, rfl, hs⟩ := h.member hm
  have hoff := hs.offset
  rw [content_append, content_cons, List.length_append, List.length_append] at hfit
  rw [hoff]
  exact ⟨hs, by omega⟩

theorem Chained.standing (h : Chained k 0 more fs) (hm : f ∈ fs) :
    Stands k f.header.fragmentOffset f ∧
      f.payload = ((content fs).drop f.header.fragmentOffset).take f.payload.length := by
  obtain ⟨before, after, rfl, hs⟩ := h.member hm
  have hoff := hs.offset
  rw [Nat.zero_add] at hoff
  rw [hoff]
  refine ⟨by rwa [Nat.zero_add] at hs, ?_⟩
  simp

theorem Travels.chained {d : Datagram α} (hd : d.payload.length ≤ 65515)
    (ho : d.header.fragmentOffset = 0) (hm : d.header.moreFragments = false)
    (ht : Travels d fs) : Chained d.header.key 0 false fs ∧ content fs = d.payload := by
  induction ht with
  | sent =>
    refine ⟨⟨⟨rfl, ho, by simp, fun h => ?_⟩, hm⟩, by simp⟩
    rw [hm] at h
    cases h
  | @hop before after gs f mtu _ h68 hword hcut ih =>
    obtain ⟨hchain, hcontent⟩ := ih
    obtain ⟨hs, hfit⟩ := hchain.fits (f := f) (by rw [hcontent]; exact hd) (by simp)
    obtain ⟨gs', h1, h2, h3, -⟩ := doFragmentation_spec hs hfit h68 hword
    rw [hcut] at h1
    cases h1
    refine ⟨hchain.splice h2 h3, ?_⟩
    rw [← hcontent]
    simp [h3]

theorem Chained.dropLast (h : Chained k off more fs) (hm : f ∈ fs.dropLast) :
    8 ∣ f.payload.length ∧ f.header.moreFragments = true := by
  induction fs generalizing off with
  | nil => cases hm
  | cons e rest ih =>
    cases rest with
    | nil => cases hm
    | cons g rest =>
      rw [List.dropLast_cons_of_ne_nil (by simp)] at hm
      rcases List.mem_cons.mp hm with rfl | hm
      · exact ⟨(h.1.words h.2.1).1, h.2.1⟩
      · exact ih h.2.2 hm

theorem Chained.getLast (h : Chained k off more fs) :
    ∃ f ∈ fs, fs.getLast? = some f ∧ f.header.moreFragments = more ∧
      f.header.fragmentOffset + f.payload.length = off + (content fs).length := by
  induction fs generalizing off with
  | nil => exact h.elim
  | cons e rest ih =>
    cases rest with
    | nil => exact ⟨e, by simp, rfl, h.2, by rw [h.1.offset]; simp⟩
    | cons g rest =>
      obtain ⟨f, h1, h2, h3, h4⟩ := ih h.2.2
      refine ⟨f, List.mem_cons_of_mem e h1, ?_, h3, ?_⟩
      · rw [List.getLast?_cons_cons, h2]
      · simp only [h4, content_cons, List.length_append]
        omega

theorem Chained.more_of_append (h : Chained k off more (before ++ f :: after)) (hne : after ≠ []) :
    f.header.moreFragments = true := by
  induction before generalizing off with
  | nil =>
    rw [List.nil_append, Chained.cons_iff hne] at h
    exact h.2.1
  | cons e rest ih =>
    rw [List.cons_append, Chained.cons_iff (by simp)] at h
    exact ih h.2.2

theorem Chained.apart (h : Chained k 0 more fs) (hf : f ∈ fs) (hg : g ∈ fs) :
    f = g ∨
      (f.header.fragmentOffset + f.payload.length ≤ g.header.fragmentOffset ∧
        f.header.moreFragments = true) ∨
      g.header.fragmentOffset + g.payload.length ≤ f.header.fragmentOffset ∧
        g.header.moreFragments = true := by
  have hbefore : ∀ {x y : Datagram α} {before after : List (Datagram α)},
      fs = before ++ y :: after → Stands k (0 + (content before).length) y → x ∈ before →
      x.header.fragmentOffset + x.payload.length ≤ y.header.fragmentOffset ∧
        x.header.moreFragments = true := by
    intro x y before after heq hy hx
    obtain ⟨b₁, b₂, rfl⟩ := List.append_of_mem hx
    have hsplit : fs = b₁ ++ x :: (b₂ ++ y :: after) := by rw [heq]; simp
    have hchain := h
    rw [hsplit] at hchain
    refine ⟨?_, hchain.more_of_append (by simp)⟩
    rw [hy.offset, hchain.stands.offset]
    simp only [content_append, content_cons, List.length_append]
    omega
  obtain ⟨before, after, heq, hgs⟩ := h.member hg
  rw [heq] at hf
  rcases List.mem_append.mp hf with hm | hm
  · exact .inr (.inl (hbefore heq hgs hm))
  · rcases List.mem_cons.mp hm with rfl | hm
    · exact .inl rfl
    · right
      right
      obtain ⟨a₁, a₂, rfl⟩ := List.append_of_mem hm
      have hsplit : fs = (before ++ g :: a₁) ++ f :: a₂ := by rw [heq]; simp
      have hchain := h
      rw [hsplit] at hchain
      exact hbefore hsplit hchain.stands (by simp)

end Chain

section Collection

structure Held (arrived : List (Datagram α)) (c : Fragments α) : Prop where
  sorted : c.fragments.Pairwise fun a b => a.2 ≤ b.2
  members : ∀ e, e ∈ c.fragments ↔ ∃ f ∈ arrived, e = (f.payload, f.header.fragmentOffset)
  last : arrived ≠ [] → (c.moreFragment = false ↔ ∃ f ∈ arrived, f.header.moreFragments = false)

theorem Held.empty : Held [] (Fragments.empty : Fragments α) :=
  ⟨by simp [Fragments.empty], by simp [Fragments.empty], by simp⟩

variable {arrived : List (Datagram α)} {c : Fragments α}

theorem Held.add (h : Held arrived c) (hchain : Chained k 0 false fs)
    (hsub : ∀ g ∈ arrived, g ∈ fs) (hf : f ∈ fs) :
    Held (arrived ++ [f]) (c.addFragment f.payload f.header.fragmentOffset
      !f.header.isLastFragment) := by
  have hnot : (!f.header.isLastFragment) = f.header.moreFragments := by
    simp [Ipv4Header.isLastFragment]
  rw [hnot]
  refine ⟨sorted_insert (e := (f.payload, f.header.fragmentOffset)) h.sorted, fun e => ?_,
    fun _ => ?_⟩
  · rw [mem_addFragment, h.members]
    constructor
    · rintro (⟨g, hg, rfl⟩ | rfl)
      · exact ⟨g, List.mem_append_left _ hg, rfl⟩
      · exact ⟨f, by simp, rfl⟩
    · rintro ⟨g, hg, rfl⟩
      rcases List.mem_append.mp hg with hg | hg
      · exact .inl ⟨g, hg, rfl⟩
      · rw [List.mem_singleton.mp hg]
        exact .inr rfl
  · simp only [addFragment]
    split_ifs with hend
    · -- the fragment goes to the end: nothing that arrived lies behind it
      have hle : ∀ g ∈ arrived, g.header.fragmentOffset ≤ f.header.fragmentOffset := by
        intro g hg
        have := (List.dropWhile_eq_nil_iff.mp hend) _ ((h.members _).mpr ⟨g, hg, rfl⟩)
        simpa using this
      constructor
      · exact fun hm => ⟨f, by simp, hm⟩
      · rintro ⟨g, hg, hm⟩
        rcases List.mem_append.mp hg with hg | hg
        · rcases hchain.apart hf (hsub g hg) with rfl | ⟨h1, h2⟩ | ⟨-, h2⟩
          · exact hm
          · have := hle g hg
            obtain ⟨hs, -⟩ := hchain.standing hf
            have := (hs.words h2).2
            omega
          · rw [hm] at h2
            cases h2
        · rw [← List.mem_singleton.mp hg]
          exact hm
    · obtain ⟨e, he, hgt⟩ : ∃ e ∈ c.fragments, f.header.fragmentOffset < e.2 := by
        by_contra hno
        apply hend
        rw [List.dropWhile_eq_nil_iff]
        intro e he
        by_contra hgt
        exact hno ⟨e, he, by simpa using hgt⟩
      obtain ⟨g, hg, rfl⟩ := (h.members e).mp he
      have hmore : f.header.moreFragments = true := by
        rcases hchain.apart hf (hsub g hg) with rfl | ⟨-, h2⟩ | ⟨h1, -⟩
        · exact absurd hgt (lt_irrefl _)
        · exact h2
        · have hgt' : f.header.fragmentOffset < g.header.fragmentOffset := hgt
          omega
      rw [h.last (List.ne_nil_of_mem hg)]
      constructor
      · rintro ⟨x, hx, hm⟩
        exact ⟨x, List.mem_append_left _ hx, hm⟩
      · rintro ⟨x, hx, hm⟩
        rcases List.mem_append.mp hx with hx | hx
        · exact ⟨x, hx, hm⟩
        · rw [List.mem_singleton.mp hx, hmore] at hm
          cases hm

theorem Chained.previous (h : Chained k 0 more fs) (hf : f ∈ fs)
    (hpos : 0 < f.header.fragmentOffset) :
    ∃ g ∈ fs, g.payload.length + g.header.fragmentOffset = f.header.fragmentOffset ∧
      g.header.fragmentOffset < f.header.fragmentOffset := by
  obtain ⟨before, after, rfl, hs⟩ := h.member hf
  have hoff := hs.offset
  rcases List.eq_nil_or_concat before with rfl | ⟨b, g, rfl⟩
  · rw [content_nil, List.length_nil] at hoff
    omega
  · rw [List.concat_eq_append] at *
    have hsplit : b ++ [g] ++ f :: after = b ++ g :: f :: after := by simp
    rw [hsplit] at h
    have hg := h.stands
    have hwords := (hg.words (h.more_of_append (by simp))).2
    have hgoff := hg.offset
    simp only [content_append, content_cons, content_nil, List.append_nil,
      List.length_append] at hoff
    exact ⟨g, by simp, by omega, by omega⟩

theorem Held.slices (h : Held arrived c) (hchain : Chained k 0 false fs)
    (hsub : ∀ g ∈ arrived, g ∈ fs) :
    Slices (content fs) c.fragments := by
  intro e he
  obtain ⟨g, hg, rfl⟩ := (h.members e).mp he
  obtain ⟨before, after, heq, hs⟩ := hchain.member (hsub g hg)
  refine ⟨?_, (hchain.standing (hsub g hg)).2⟩
  simp only [hs.offset, heq, content_append, content_cons, List.length_append]
  omega

theorem Held.noGap_iff (h : Held arrived c) (hchain : Chained k 0 false fs)
    (hfit : (content fs).length ≤ 65515) (hsub : ∀ g ∈ arrived, g ∈ fs)
    (hlast : ∃ f ∈ arrived, f.header.moreFragments = false) :
    noGap c.fragments 0 = true ↔ ∀ g ∈ fs, g ∈ arrived := by
  have hsmall : ∀ e ∈ c.fragments, e.1.length + e.2 < 65536 := fun e he =>
    (h.slices hchain hsub).small (by omega) he
  rw [Fragments.noGap_iff hsmall]
  constructor
  · intro hgap g hg
    by_contra hmiss
    -- the members before the missing one end before it, the next one begins behind it
    obtain ⟨z, hz, hzl⟩ := hlast
    have hother : ∀ x ∈ arrived,
        x.header.fragmentOffset + x.payload.length ≤ g.header.fragmentOffset ∨
        g.header.fragmentOffset + g.payload.length ≤ x.header.fragmentOffset ∧
          g.header.moreFragments = true := by
      intro x hx
      rcases hchain.apart (hsub x hx) hg with rfl | ⟨h1, -⟩ | h1
      · exact absurd hx hmiss
      · exact .inl h1
      · exact .inr h1
    have hbehind : g.header.fragmentOffset + g.payload.length ≤ z.header.fragmentOffset ∧
        g.header.moreFragments = true := by
      rcases hchain.apart (hsub z hz) hg with rfl | ⟨-, h1⟩ | h1
      · exact absurd hz hmiss
      · rw [hzl] at h1
        cases h1
      · exact h1
    have hpos := ((hchain.standing hg).1.words hbehind.2).2
    have hsplit := List.takeWhile_append_dropWhile
      (p := fun e : List α × ℕ => e.2 ≤ g.header.fragmentOffset) (l := c.fragments)
    cases hd : c.fragments.dropWhile fun e => e.2 ≤ g.header.fragmentOffset with
    | nil =>
      have hle := List.dropWhile_eq_nil_iff.mp hd _ ((h.members _).mpr ⟨z, hz, rfl⟩)
      simp only [decide_eq_true_eq] at hle
      omega
    | cons e rest =>
      rw [hd] at hsplit
      have hreach := hgap _ _ _ hsplit.symm
      have hout : ¬ e.2 ≤ g.header.fragmentOffset := by
        have := List.head_dropWhile_not (fun e : List α × ℕ => e.2 ≤ g.header.fragmentOffset)
          (show c.fragments.dropWhile _ ≠ [] by rw [hd]; simp)
        simp only [hd, List.head_cons] at this
        simpa using this
      obtain ⟨x, hx, rfl⟩ := (h.members e).mp (by rw [← hsplit]; simp)
      have hxoff : g.header.fragmentOffset + g.payload.length ≤ x.header.fragmentOffset := by
        rcases hother x hx with h1 | ⟨h1, -⟩
        · simp only at hout
          omega
        · exact h1
      have hbefore : reach (c.fragments.takeWhile fun e => e.2 ≤ g.header.fragmentOffset) 0 ≤
          g.header.fragmentOffset := by
        apply reach_le (Nat.zero_le _)
        intro e he
        obtain ⟨y, hy, rfl⟩ := (h.members e).mp (List.takeWhile_subset _ he)
        have hle := List.mem_takeWhile_imp he
        simp only [decide_eq_true_eq] at hle
        rcases hother y hy with h1 | ⟨h1, -⟩
        · simp only
          omega
        · omega
      simp only at hreach
      omega
  · intro hall before e after heq
    obtain ⟨x, hx, rfl⟩ := (h.members e).mp (by rw [heq]; simp)
    by_cases h0 : x.header.fragmentOffset = 0
    · simp only [h0]
      exact Nat.zero_le _
    · obtain ⟨g, hg, hend, hlt⟩ := hchain.previous (hsub x hx) (Nat.pos_of_ne_zero h0)
      have hmem : (g.payload, g.header.fragmentOffset) ∈ before := by
        have hin := (h.members _).mpr ⟨g, hall g hg, rfl⟩
        have hsorted := h.sorted
        rw [heq] at hin hsorted
        rcases List.mem_append.mp hin with hin | hin
        · exact hin
        · have hle := (List.pairwise_cons.mp (List.pairwise_append.mp hsorted).2.1).1
          rcases List.mem_cons.mp hin with hin | hin
          · have := congrArg Prod.snd hin
            simp only at this
            omega
          · have := hle _ hin
            simp only at this
            omega
      have := end_le_reach hmem 0
      simp only at this ⊢
      omega

/-- The collection is entire exactly when all fragments arrived, and then it is the payload. -/
theorem Held.complete (h : Held arrived c) (hchain : Chained k 0 false fs)
    (hfit : (content fs).length ≤ 65515) (hsub : ∀ g ∈ arrived, g ∈ fs) (hne : arrived ≠ []) :
    (c.isEntire = true ↔ ∀ g ∈ fs, g ∈ arrived) ∧
      (c.isEntire = true → c.getPacket = content fs) := by
  obtain ⟨z, hz, -, hzl, hzend⟩ := hchain.getLast
  have hnonempty : c.fragments ≠ [] := by
    obtain ⟨g, hg⟩ := List.exists_mem_of_ne_nil arrived hne
    exact List.ne_nil_of_mem ((h.members _).mpr ⟨g, hg, rfl⟩)
  have hentire : c.isEntire = true ↔ ∀ g ∈ fs, g ∈ arrived := by
    simp only [isEntire, Bool.and_eq_true, Bool.not_eq_true', h.last hne]
    constructor
    · rintro ⟨⟨hlast, -⟩, hgap⟩
      exact (h.noGap_iff hchain hfit hsub hlast).mp hgap
    · intro hall
      have hlast : ∃ f ∈ arrived, f.header.moreFragments = false := ⟨z, hall z hz, hzl⟩
      refine ⟨⟨hlast, ?_⟩, (h.noGap_iff hchain hfit hsub hlast).mpr hall⟩
      simpa using hnonempty
  refine ⟨hentire, fun he => ?_⟩
  have hall := hentire.mp he
  simp only [isEntire, Bool.and_eq_true] at he
  have hslices := h.slices hchain hsub
  rw [getPacket_spec hslices (by omega) hnonempty he.2]
  apply List.take_of_length_le
  have := end_le_reach ((h.members _).mpr ⟨z, hall z hz, rfl⟩) 0
  simp only at this
  omega

end Collection

section Receiver
variable {m : Collected α} {es : List (Datagram α)}

def own (k : ℕ × ℕ) (es : List (Datagram α)) : List (Datagram α) :=
  es.filter fun e => e.header.key = k

theorem mem_own_iff (hchain : Chained k 0 false fs) (hg : g ∈ fs) : g ∈ own k es ↔ g ∈ es := by
  have hkey := (hchain.standing hg).1.key
  simp [own, hkey]

theorem own_subset (hes : ∀ e ∈ es, e ∈ fs ∨ e.header.key ≠ k) : ∀ g ∈ own k es, g ∈ fs := by
  intro g hg
  obtain ⟨hmem, hkey⟩ := List.mem_filter.mp hg
  rcases hes g hmem with h | h
  · exact h
  · exact absurd (by simpa using hkey) h

theorem processFragment_spec (hchain : Chained k 0 false fs) (hfit : (content fs).length ≤ 65515)
    (hes : ∀ e ∈ es, e ∈ fs ∨ e.header.key ≠ k) (hf : f ∈ fs)
    (hheld : Held (own k es) ((m k).getD Fragments.empty)) :
    (∀ g ∈ fs, g ∈ es ++ [f]) ∧ (processFragment m f).2 = some (content fs) ∨
      ¬ (∀ g ∈ fs, g ∈ es ++ [f]) ∧ (processFragment m f).2 = none ∧
        Held (own k (es ++ [f])) (((processFragment m f).1 k).getD Fragments.empty) := by
  have hkey : f.header.key = k := (hchain.standing hf).1.key
  have hsub := own_subset hes
  have happend : own k (es ++ [f]) = own k es ++ [f] := by simp [own, hkey]
  have hadd := hheld.add hchain hsub hf
  rw [← happend] at hadd
  have hsub' : ∀ g ∈ own k (es ++ [f]), g ∈ fs := by
    intro g hg
    rw [happend] at hg
    rcases List.mem_append.mp hg with hg | hg
    · exact hsub g hg
    · rwa [List.mem_singleton.mp hg]
  obtain ⟨h1, h2⟩ := hadd.complete hchain hfit hsub' (by simp [happend])
  have hall : (∀ g ∈ fs, g ∈ own k (es ++ [f])) ↔ ∀ g ∈ fs, g ∈ es ++ [f] :=
    forall₂_congr fun g hg => mem_own_iff hchain hg
  rw [hall] at h1
  simp only [processFragment, hkey]
  split_ifs with hentire
  · exact .inl ⟨h1.mp hentire, by rw [h2 hentire]⟩
  · refine .inr ⟨fun h => hentire (h1.mpr h), rfl, ?_⟩
    simpa using hadd

theorem receive_spec (hchain : Chained k 0 false fs) (hfit : (content fs).length ≤ 65515)
    (hm : m k = none) (hes : ∀ e ∈ es, e ∈ fs ∨ e.header.key ≠ k)
    (hmiss : ¬ ∀ g ∈ fs, g ∈ es) :
    Held (own k es) ((receive m es k).getD Fragments.empty) := by
  induction es using List.reverseRecOn with
  | nil =>
    simp only [receive, List.foldl_nil, hm, Option.getD_none]
    exact Held.empty
  | append_singleton es e ih =>
    have hes' : ∀ x ∈ es, x ∈ fs ∨ x.header.key ≠ k := fun x hx =>
      hes x (List.mem_append_left _ hx)
    have hbefore := ih hes' fun hall => hmiss fun g hg => List.mem_append_left _ (hall g hg)
    have hstep : receive m (es ++ [e]) = (processFragment (receive m es) e).1 := by
      simp [receive]
    rw [hstep]
    by_cases hkey : e.header.key = k
    · have he : e ∈ fs := (hes e (by simp)).resolve_right (not_not.mpr hkey)
      rcases processFragment_spec hchain hfit hes' he hbefore with ⟨hall, -⟩ | ⟨-, -, h⟩
      · exact absurd hall hmiss
      · exact h
    · have hown : own k (es ++ [e]) = own k es := by simp [own, hkey]
      have hother : (processFragment (receive m es) e).1 k = receive m es k := by
        simp only [processFragment]
        split_ifs <;> exact Function.update_of_ne (Ne.symm hkey) _ _
      rw [hown, hother]
      exact hbefore

end Receiver

/-- Every way of fragments fits its links, and the receiver gives back the payload with the last
fragment that was missing, in whatever order and however often the fragments come in. -/
theorem ipv4_fragments_reassemble {α : Type*} {d : Datagram α} {fs : List (Datagram α)}
    (hd : d.payload.length ≤ 65515) (ho : d.header.fragmentOffset = 0)
    (hm : d.header.moreFragments = false) (ht : Travels d fs) :
    (∀ f ∈ fs, ∀ mtu, 68 ≤ mtu → mtu < 4294967296 →
      ∃ gs, doFragmentation f mtu = some gs ∧
        ∀ g ∈ gs, g.payload.length + Ipv4Header.serializedSize ≤ mtu) ∧
    (∀ f ∈ fs.dropLast, 8 ∣ f.payload.length ∧ f.header.moreFragments = true) ∧
    (∀ f ∈ fs.getLast?, f.header.moreFragments = false) ∧
    ∀ (m : Collected α) (es : List (Datagram α)), m d.header.key = none →
      (∀ e ∈ es, e ∈ fs ∨ e.header.key ≠ d.header.key) → ¬ (∀ g ∈ fs, g ∈ es) →
      ∀ f ∈ fs, ((∀ g ∈ fs, g ∈ es ++ [f]) →
          (processFragment (receive m es) f).2 = some d.payload) ∧
        (¬ (∀ g ∈ fs, g ∈ es ++ [f]) → (processFragment (receive m es) f).2 = none) := by
  obtain ⟨hchain, hcontent⟩ := ht.chained hd ho hm
  have hfit : (content fs).length ≤ 65515 := by rw [hcontent]; exact hd
  refine ⟨?_, fun f hf => hchain.dropLast hf, ?_, ?_⟩
  · intro f hf mtu h68 hword
    obtain ⟨hs, hlen⟩ := hchain.fits hfit hf
    obtain ⟨gs, h1, -, -, h4⟩ := doFragmentation_spec hs hlen h68 hword
    exact ⟨gs, h1, h4⟩
  · intro f hf
    obtain ⟨z, -, hz, hzl, -⟩ := hchain.getLast
    rw [hz] at hf
    cases hf
    exact hzl
  · intro m es hkey hes hmiss f hf
    have hheld := receive_spec hchain hfit hkey hes hmiss
    rw [← hcontent]
    rcases processFragment_spec hchain hfit hes hf hheld with ⟨hall, h⟩ | ⟨hall, h, -⟩
    · exact ⟨fun _ => h, fun hno => absurd hall hno⟩
    · exact ⟨fun h' => absurd h' hall, fun _ => h⟩

/-- Cut for a link of 84 bytes, then for one of 68; the last fragment arrives first and twice. -/
theorem ipv4_fragments_reassemble_cut_twice :
    ∃ a b c : Datagram ℕ, Travels ⟨List.range 100, ⟨1, 2, 3, 17, 100, 0, false⟩⟩ [a, b, c] ∧
      (processFragment (receive (fun _ => none) [c, a, c]) b).2 = some (List.range 100) := by
  have hfirst : Travels (⟨List.range 100, ⟨1, 2, 3, 17, 100, 0, false⟩⟩ : Datagram ℕ)
      [⟨List.range 64, ⟨1, 2, 3, 17, 64, 0, true⟩⟩,
        ⟨List.range' 64 36, ⟨1, 2, 3, 17, 36, 64, false⟩⟩] :=
    @Travels.hop _ _ [] [] [_, _] _ 84 .sent (by decide) (by decide) (by decide +kernel)
  have hsecond : Travels (⟨List.range 100, ⟨1, 2, 3, 17, 100, 0, false⟩⟩ : Datagram ℕ)
      [⟨List.range 48, ⟨1, 2, 3, 17, 48, 0, true⟩⟩,
        ⟨List.range' 48 16, ⟨1, 2, 3, 17, 16, 48, true⟩⟩,
        ⟨List.range' 64 36, ⟨1, 2, 3, 17, 36, 64, false⟩⟩] :=
    @Travels.hop _ _ [] [_] [_, _] _ 68 hfirst (by decide) (by decide) (by decide +kernel)
  obtain ⟨-, -, -, h⟩ := ipv4_fragments_reassemble (by decide) rfl rfl hsecond
  exact ⟨_, _, _, hsecond, (h (fun _ => none) [_, _, _] rfl (by decide +kernel)
    (by decide +kernel) _ (by simp)).1 (by decide +kernel)⟩

end NetGymSim.Internet.Ipv4L3Protocol

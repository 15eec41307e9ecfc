import NetGymSim.Internet.Ipv4Reassembly
import Mathlib.Data.List.Induction
import Mathlib.Data.List.TakeWhile

/-!
# Overlapping fragments

Fragments of one datagram that was cut in more than one way. The coverage scan and the join agree
on them in any order. The flag of the collection is that of the fragment that came last among
those with the largest offset, and this need not be a last fragment.
-/

namespace NetGymSim.Internet.Ipv4L3Protocol
open Lib Fragments
variable {α : Type*}

structure Cut where
  offset : ℕ
  len : ℕ
deriving DecidableEq, Repr

def Cut.last (c : Cut) : ℕ := c.offset + c.len

section Collect
variable (D : List α)

def addCut (f : Fragments α) (c : Cut) : Fragments α :=
  f.addFragment ((D.drop c.offset).take c.len) c.offset (decide (c.last < D.length))

def collect (cs : List Cut) : Fragments α := cs.foldl (addCut D) Fragments.empty

def Covers (cs : List Cut) : Prop := ∀ p < D.length, ∃ c ∈ cs, c.offset ≤ p ∧ p < c.last

def LastReceived (cs : List Cut) : Prop := ∃ c ∈ cs, c.last = D.length

instance (cs : List Cut) : Decidable (Covers D cs) :=
  inferInstanceAs (Decidable (∀ p < D.length, ∃ c ∈ cs, c.offset ≤ p ∧ p < c.last))

instance (cs : List Cut) : Decidable (LastReceived D cs) :=
  inferInstanceAs (Decidable (∃ c ∈ cs, c.last = D.length))

/-- A collection is entire just when it should be, and then it gives the payload. -/
def Reassembles (cs : List Cut) : Prop :=
  ((collect D cs).isEntire = true ↔ Covers D cs ∧ LastReceived D cs) ∧
    ((collect D cs).isEntire = true → (collect D cs).getPacket = D)

end Collect

def foremost : List Cut → Option Cut
  | [] => none
  | c :: cs => some (cs.foldl (fun top c => if top.offset ≤ c.offset then c else top) c)

section Collection
variable {D : List α} {cs : List Cut} {c top : Cut}

theorem foremost_append (cs : List Cut) (c : Cut) :
    foremost (cs ++ [c]) = match foremost cs with
      | none => some c
      | some top => some (if top.offset ≤ c.offset then c else top) := by
  cases cs with
  | nil => rfl
  | cons x cs =>
    simp only [foremost, List.cons_append, List.foldl_append, List.foldl_cons, List.foldl_nil]

/-- What a collection holds after the fragments `cs`, in this order, were added. -/
structure Gathered (D : List α) (cs : List Cut) (f : Fragments α) : Prop where
  sorted : f.fragments.Pairwise fun a b => a.2 ≤ b.2
  members : ∀ e, e ∈ f.fragments ↔ ∃ c ∈ cs, e = ((D.drop c.offset).take c.len, c.offset)
  empty : foremost cs = none → cs = []
  flag : ∀ top, foremost cs = some top → top ∈ cs ∧ (∀ c ∈ cs, c.offset ≤ top.offset) ∧
    f.moreFragment = decide (top.last < D.length)

theorem Gathered.add {f : Fragments α} (h : Gathered D cs f) (c : Cut) :
    Gathered D (cs ++ [c]) (addCut D f c) := by
  refine ⟨sorted_insert (e := ((D.drop c.offset).take c.len, c.offset)) h.sorted, fun e => ?_, ?_,
    ?_⟩
  · rw [addCut, mem_addFragment, h.members]
    constructor
    · intro he
      rcases he with ⟨x, hx, rfl⟩ | rfl
      · exact ⟨x, List.mem_append_left _ hx, rfl⟩
      · exact ⟨c, List.mem_append_right _ List.mem_cons_self, rfl⟩
    · intro he
      obtain ⟨x, hx, rfl⟩ := he
      rcases List.mem_append.mp hx with hx | hx
      · exact .inl ⟨x, hx, rfl⟩
      · rw [List.mem_singleton.mp hx]
        exact .inr rfl
  · intro hnone
    rw [foremost_append] at hnone
    cases hf : foremost cs <;> rw [hf] at hnone <;> cases hnone
  · intro top htop
    rw [foremost_append] at htop
    have hend : f.fragments.dropWhile (fun e => e.2 ≤ c.offset) = [] ↔
        ∀ x ∈ cs, x.offset ≤ c.offset := by
      rw [List.dropWhile_eq_nil_iff]
      constructor
      · intro hall x hx
        simpa using hall _ ((h.members _).mpr ⟨x, hx, rfl⟩)
      · intro hall e he
        obtain ⟨x, hx, rfl⟩ := (h.members e).mp he
        simpa using hall x hx
    have hflag : (addCut D f c).moreFragment =
        if ∀ x ∈ cs, x.offset ≤ c.offset then decide (c.last < D.length) else f.moreFragment := by
      simp only [addCut, addFragment]
      by_cases hall : ∀ x ∈ cs, x.offset ≤ c.offset
      · rw [if_pos (hend.mpr hall), if_pos hall]
      · rw [if_neg (hend.not.mpr hall), if_neg hall]
    rw [hflag]
    cases hf : foremost cs with
    | none =>
      rw [hf] at htop
      cases htop
      rw [h.empty hf]
      refine ⟨List.mem_cons_self, ?_, if_pos (List.forall_mem_nil _)⟩
      intro x hx
      rw [List.mem_singleton.mp hx]
    | some t =>
      rw [hf] at htop
      obtain ⟨h1, h2, h3⟩ := h.flag t hf
      have heq : top = if t.offset ≤ c.offset then c else t := (Option.some.inj htop).symm
      have hall : (∀ x ∈ cs, x.offset ≤ c.offset) ↔ t.offset ≤ c.offset :=
        ⟨fun hx => hx t h1, fun hle x hx => (h2 x hx).trans hle⟩
      by_cases hle : t.offset ≤ c.offset
      · rw [if_pos hle] at heq
        rw [if_pos (hall.mpr hle), heq]
        refine ⟨List.mem_append_right _ List.mem_cons_self, fun x hx => ?_, rfl⟩
        rcases List.mem_append.mp hx with hx | hx
        · exact hall.mpr hle x hx
        · rw [List.mem_singleton.mp hx]
      · rw [if_neg hle] at heq
        rw [if_neg (hall.not.mpr hle), heq, h3]
        refine ⟨List.mem_append_left _ h1, fun x hx => ?_, rfl⟩
        rcases List.mem_append.mp hx with hx | hx
        · exact h2 x hx
        · rw [List.mem_singleton.mp hx]
          omega

theorem gathered (D : List α) (cs : List Cut) : Gathered D cs (collect D cs) := by
  induction cs using List.reverseRecOn with
  | nil => exact ⟨List.Pairwise.nil, by simp [collect, Fragments.empty], fun _ => rfl, nofun⟩
  | append_singleton cs c ih =>
    rw [collect, List.foldl_append]
    exact ih.add c

def Inside (D : List α) (cs : List Cut) : Prop := ∀ c ∈ cs, c.last ≤ D.length

instance (D : List α) (cs : List Cut) : Decidable (Inside D cs) :=
  inferInstanceAs (Decidable (∀ c ∈ cs, c.last ≤ D.length))

theorem Inside.length (h : Inside D cs) (hc : c ∈ cs) :
    ((D.drop c.offset).take c.len).length = c.len := by
  have := h c hc
  rw [Cut.last] at this
  rw [List.length_take, List.length_drop]
  omega

theorem Gathered.slices {f : Fragments α} (h : Gathered D cs f) (hin : Inside D cs) :
    Slices D f.fragments := by
  intro e he
  obtain ⟨c, hc, rfl⟩ := (h.members e).mp he
  have hlen := hin.length hc
  have hlast := hin c hc
  rw [Cut.last] at hlast
  refine ⟨?_, ?_⟩
  · dsimp only
    omega
  · dsimp only
    rw [hlen]

theorem Gathered.covers {f : Fragments α} (h : Gathered D cs f) (hD : D.length ≤ 65515)
    (hin : Inside D cs) (hlast : LastReceived D cs) (hg : noGap f.fragments 0 = true) :
    Covers D cs := by
  intro p hp
  by_contra hno
  have hsmall : ∀ e ∈ f.fragments, e.1.length + e.2 < 65536 := fun e he =>
    (h.slices hin).small (by omega) he
  rw [noGap_iff hsmall] at hg
  obtain ⟨z, hz, hend⟩ := hlast
  have hsplit := List.takeWhile_append_dropWhile (p := fun e : List α × ℕ => e.2 ≤ p)
    (l := f.fragments)
  -- the fragments that begin at or before `p` end there, the next one leaves a gap
  have hbefore : reach (f.fragments.takeWhile fun e => e.2 ≤ p) 0 ≤ p := by
    apply reach_le (Nat.zero_le _)
    intro e he
    have hle := List.mem_takeWhile_imp he
    obtain ⟨c, hc, rfl⟩ := (h.members e).mp (List.takeWhile_subset _ he)
    simp only [decide_eq_true_eq] at hle
    have hnot : ¬ p < c.last := fun hlt => hno ⟨c, hc, hle, hlt⟩
    rw [Cut.last] at hnot
    rw [hin.length hc]
    dsimp only
    omega
  cases hd : f.fragments.dropWhile fun e => e.2 ≤ p with
  | nil =>
    have hle := List.dropWhile_eq_nil_iff.mp hd _ ((h.members _).mpr ⟨z, hz, rfl⟩)
    simp only [decide_eq_true_eq] at hle
    exact hno ⟨z, hz, hle, by omega⟩
  | cons e rest =>
    have hout : ¬ e.2 ≤ p := by
      have hne : f.fragments.dropWhile (fun e => e.2 ≤ p) ≠ [] := by
        rw [hd]
        exact List.cons_ne_nil e rest
      have := List.head_dropWhile_not (fun e : List α × ℕ => e.2 ≤ p) hne
      simp only [hd, List.head_cons] at this
      simpa using this
    rw [hd] at hsplit
    have := hg _ _ _ hsplit.symm
    omega

theorem Gathered.noGap {f : Fragments α} (h : Gathered D cs f) (hD : D.length ≤ 65515)
    (hin : Inside D cs) (hc : Covers D cs) : noGap f.fragments 0 = true := by
  have hsmall : ∀ e ∈ f.fragments, e.1.length + e.2 < 65536 := fun e he =>
    (h.slices hin).small (by omega) he
  rw [noGap_iff hsmall]
  intro before e after heq
  obtain ⟨x, hx, rfl⟩ := (h.members e).mp (by rw [heq]; simp)
  have hxlast := hin x hx
  rw [Cut.last] at hxlast
  dsimp only
  by_cases h0 : x.offset = 0
  · rw [h0]
    exact Nat.zero_le _
  · obtain ⟨g, hgm, hlow, hhigh⟩ := hc (x.offset - 1) (by omega)
    rw [Cut.last] at hhigh
    have hmem : ((D.drop g.offset).take g.len, g.offset) ∈ before := by
      have hg' := (h.members _).mpr ⟨g, hgm, rfl⟩
      have hsorted := h.sorted
      rw [heq] at hg' hsorted
      rcases List.mem_append.mp hg' with hg' | hg'
      · exact hg'
      · have hle := (List.pairwise_cons.mp (List.pairwise_append.mp hsorted).2.1).1
        rcases List.mem_cons.mp hg' with heq' | hg'
        · have := congrArg Prod.snd heq'
          dsimp only at this
          omega
        · have := hle _ hg'
          dsimp only at this
          omega
    have := end_le_reach hmem 0
    rw [hin.length hgm] at this
    dsimp only at this
    omega

theorem Gathered.isEntire {f : Fragments α} (h : Gathered D cs f) (hD : D.length ≤ 65515)
    (hin : Inside D cs) : f.isEntire = true ↔
      Covers D cs ∧ LastReceived D cs ∧ ∀ top, foremost cs = some top → top.last = D.length := by
  have hflag : ∀ top, foremost cs = some top →
      (f.moreFragment = false ↔ top.last = D.length) := by
    intro top htop
    obtain ⟨hmem, -, hmore⟩ := h.flag top htop
    have := hin top hmem
    rw [hmore, decide_eq_false_iff_not]
    omega
  simp only [Fragments.isEntire, Bool.and_eq_true, Bool.not_eq_true', List.isEmpty_eq_false_iff]
  constructor
  · intro he
    obtain ⟨⟨hmore, hne⟩, hg⟩ := he
    obtain ⟨e, hem⟩ := List.exists_mem_of_ne_nil _ hne
    obtain ⟨c, hc, -⟩ := (h.members e).mp hem
    cases hf : foremost cs with
    | none =>
      rw [h.empty hf] at hc
      cases hc
    | some top =>
      have hend := (hflag top hf).mp hmore
      have hlast : LastReceived D cs := ⟨top, (h.flag top hf).1, hend⟩
      refine ⟨h.covers hD hin hlast hg, hlast, fun t ht => ?_⟩
      cases ht
      exact hend
  · intro he
    obtain ⟨hc, hlast, htop⟩ := he
    obtain ⟨z, hz, -⟩ := hlast
    have hne : f.fragments ≠ [] := List.ne_nil_of_mem ((h.members _).mpr ⟨z, hz, rfl⟩)
    cases hf : foremost cs with
    | none =>
      rw [h.empty hf] at hz
      cases hz
    | some top => exact ⟨⟨(hflag top hf).mpr (htop top hf), hne⟩, h.noGap hD hin hc⟩

theorem Gathered.getPacket {f : Fragments α} (h : Gathered D cs f) (hD : D.length ≤ 65515)
    (hin : Inside D cs) (he : f.isEntire = true) : f.getPacket = D := by
  obtain ⟨hc, ⟨z, hz, hend⟩, -⟩ := (h.isEntire hD hin).mp he
  have hne : f.fragments ≠ [] := List.ne_nil_of_mem ((h.members _).mpr ⟨z, hz, rfl⟩)
  rw [getPacket_spec (h.slices hin) (by omega) hne (h.noGap hD hin hc)]
  apply List.take_of_length_le
  have := end_le_reach ((h.members _).mpr ⟨z, hz, rfl⟩) 0
  rw [hin.length hz] at this
  rw [Cut.last] at hend
  dsimp only at this
  omega

/-- Fragments in the order of their arrival: when they cover the payload, the one that came last
among those with the largest offset has to be a last fragment. -/
theorem overlapping_fragments_reassemble_iff {D : List α} {cs : List Cut} (hD : D.length ≤ 65515)
    (hin : Inside D cs) : Reassembles D cs ↔
      (Covers D cs → LastReceived D cs → ∀ top, foremost cs = some top → top.last = D.length) := by
  have h := gathered D cs
  have hentire := h.isEntire hD hin
  rw [Reassembles, hentire]
  constructor
  · intro hr hc hlast
    exact (hr.1.mpr ⟨hc, hlast⟩).2.2
  · intro hcond
    refine ⟨⟨fun he => ⟨he.1, he.2.1⟩, fun he => ⟨he.1, he.2, hcond he.1 he.2⟩⟩, fun he => ?_⟩
    exact h.getPacket hD hin (hentire.mpr he)

/-- Cut at 8 and 16, and at 16 alone; the piece that both cuts end with comes in last. -/
theorem overlapping_fragments_reassemble_iff_twice :
    Reassembles (List.range 20) [⟨16, 4⟩, ⟨0, 16⟩, ⟨8, 8⟩, ⟨8, 12⟩, ⟨16, 4⟩] ↔
      (Covers (List.range 20) [⟨16, 4⟩, ⟨0, 16⟩, ⟨8, 8⟩, ⟨8, 12⟩, ⟨16, 4⟩] →
        LastReceived (List.range 20) [⟨16, 4⟩, ⟨0, 16⟩, ⟨8, 8⟩, ⟨8, 12⟩, ⟨16, 4⟩] →
        ∀ top, foremost [⟨16, 4⟩, ⟨0, 16⟩, ⟨8, 8⟩, ⟨8, 12⟩, ⟨16, 4⟩] = some top →
          top.last = (List.range 20).length) :=
  overlapping_fragments_reassemble_iff (by decide) (by decide)

/-- The long last fragment from 8 comes first, then a piece of 8 bytes from the same offset. -/
theorem shared_offset_not_entire :
    ¬ Reassembles (List.range 20) [⟨8, 12⟩, ⟨8, 8⟩, ⟨0, 8⟩] := by
  intro h
  have hc : Covers (List.range 20) [⟨8, 12⟩, ⟨8, 8⟩, ⟨0, 8⟩] := by decide
  have hl : LastReceived (List.range 20) [⟨8, 12⟩, ⟨8, 8⟩, ⟨0, 8⟩] := by decide
  have := h.1.mpr ⟨hc, hl⟩
  revert this
  decide

end Collection
end NetGymSim.Internet.Ipv4L3Protocol

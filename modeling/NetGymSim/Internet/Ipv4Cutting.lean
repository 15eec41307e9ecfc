import NetGymSim.Lib.Word
import Mathlib.Logic.Function.Basic
import Mathlib.Data.List.Basic

/-!
# IPv4 fragmentation and reassembly

A packet is the list of its bytes. Of the header the model keeps what the two functions
read and write; there are no options, so that it takes 20 bytes. The timeout of an
incomplete datagram is left out.
-/

namespace NetGymSim.Internet
open Lib

structure Ipv4Header where
  source : ℕ
  destination : ℕ
  identification : ℕ
  protocol : ℕ
  payloadSize : ℕ
  fragmentOffset : ℕ
  moreFragments : Bool
deriving DecidableEq, Repr

namespace Ipv4Header

def serializedSize : ℕ := 20

def isLastFragment (h : Ipv4Header) : Bool := !h.moreFragments

def setMoreFragments (h : Ipv4Header) : Ipv4Header := { h with moreFragments := true }

def setLastFragment (h : Ipv4Header) : Ipv4Header := { h with moreFragments := false }

/-- An offset that is no multiple of 8 aborts the program. -/
def setFragmentOffset (h : Ipv4Header) (offsetBytes : ℕ) : Option Ipv4Header :=
  if offsetBytes % 65536 % 8 = 0 then some { h with fragmentOffset := offsetBytes % 65536 }
  else none

def setPayloadSize (h : Ipv4Header) (size : ℕ) : Ipv4Header :=
  { h with payloadSize := size % 65536 }

def key (h : Ipv4Header) : ℕ × ℕ :=
  (h.source <<< 32 ||| h.destination, h.identification <<< 16 ||| h.protocol)

end Ipv4Header

structure Datagram (α : Type*) where
  payload : List α
  header : Ipv4Header
deriving DecidableEq, Repr

namespace Ipv4L3Protocol
variable {α : Type*}

section Fragmentation

/-- The loop of `DoFragmentation`, with the `uint16_t` offset of its next fragment. -/
def fragmentLoop (packet : List α) (ipv4Header : Ipv4Header) (fragmentSize : ℕ) :
    ℕ → ℕ → Option (List (Datagram α))
  | 0, _ => none
  | turns + 1, offset =>
    let moreFragment := decide (add32 offset fragmentSize < packet.length)
    let size := if moreFragment then fragmentSize else sub32 packet.length offset
    let fragmentHeader :=
      if moreFragment ∨ ¬ ipv4Header.isLastFragment then ipv4Header.setMoreFragments
      else ipv4Header.setLastFragment
    match fragmentHeader.setFragmentOffset (offset + ipv4Header.fragmentOffset) with
    | none => none
    | some fragmentHeader =>
      let fragment : Datagram α :=
        ⟨(packet.drop offset).take size, fragmentHeader.setPayloadSize size⟩
      if moreFragment then
        (fragmentLoop packet ipv4Header fragmentSize turns ((offset + size) % 65536)).map
          fun fragments => fragment :: fragments
      else some [fragment]

def doFragmentation (d : Datagram α) (outIfaceMtu : ℕ) : Option (List (Datagram α)) :=
  fragmentLoop d.payload d.header (sub32 outIfaceMtu Ipv4Header.serializedSize / 8 * 8)
    (d.payload.length + 1) 0

end Fragmentation

section Reassembly

/-- The fragments of one datagram that arrived so far, by offset. -/
structure Fragments (α : Type*) where
  fragments : List (List α × ℕ)
  moreFragment : Bool
deriving DecidableEq

namespace Fragments

def empty : Fragments α := ⟨[], false⟩

def addFragment (f : Fragments α) (fragment : List α) (fragmentOffset : ℕ)
    (moreFragment : Bool) : Fragments α :=
  let before := f.fragments.takeWhile fun e => e.2 ≤ fragmentOffset
  let after := f.fragments.dropWhile fun e => e.2 ≤ fragmentOffset
  { fragments := before ++ (fragment, fragmentOffset) :: after
    moreFragment := if after = [] then moreFragment else f.moreFragment }

/-- The scan of `IsEntire` for a gap in front of a fragment. -/
def noGap : List (List α × ℕ) → ℕ → Bool
  | [], _ => true
  | e :: rest, lastEndOffset =>
    if lastEndOffset < e.2 then false
    else noGap rest (max lastEndOffset ((e.1.length + e.2) % 65536))

def isEntire (f : Fragments α) : Bool :=
  !f.moreFragment && !f.fragments.isEmpty && noGap f.fragments 0

/-- The loop of `GetPacket`: each fragment adds what lies behind the end of the packet. -/
def joinLoop : List (List α × ℕ) → List α → List α
  | [], p => p
  | e :: rest, p =>
    let lastEndOffset := p.length % 65536
    if e.2 < lastEndOffset then
      let newStart := lastEndOffset - e.2
      if newStart < e.1.length then joinLoop rest (p ++ e.1.drop newStart)
      else joinLoop rest p
    else joinLoop rest (p ++ e.1)

def getPacket (f : Fragments α) : List α :=
  match f.fragments with
  | [] => []
  | e :: rest => joinLoop rest e.1

end Fragments

abbrev Collected (α : Type*) : Type _ := ℕ × ℕ → Option (Fragments α)

/-- `ProcessFragment`, with the packet that is complete when it returns true. -/
def processFragment (m : Collected α) (d : Datagram α) : Collected α × Option (List α) :=
  let key := d.header.key
  let fragments := ((m key).getD Fragments.empty).addFragment d.payload
    d.header.fragmentOffset !d.header.isLastFragment
  if fragments.isEntire then (Function.update m key none, some fragments.getPacket)
  else (Function.update m key (some fragments), none)

end Reassembly
end Ipv4L3Protocol
end NetGymSim.Internet

/-!
## Cutting a datagram along its way

`Chained` describes the fragments of one datagram in the order of the stream: consecutive
offsets, whole multiples of 8 bytes and the flag for more fragments on all but the last.
`DoFragmentation` turns one fragment into such a chain, and a chain with one member
replaced by a chain is a chain again.
-/

namespace NetGymSim.Internet.Ipv4L3Protocol
open Lib
variable {α : Type*} {k : ℕ × ℕ} {off n : ℕ} {more : Bool}

def content (fs : List (Datagram α)) : List α := fs.flatMap fun f => f.payload

/-- The fragment stands at `off`, under the key `k`, and is whole words unless it is the last. -/
structure Stands (k : ℕ × ℕ) (off : ℕ) (f : Datagram α) : Prop where
  key : f.header.key = k
  offset : f.header.fragmentOffset = off
  aligned : 8 ∣ off
  words : f.header.moreFragments = true → 8 ∣ f.payload.length ∧ 0 < f.payload.length

/-- Consecutive fragments from `off` on; `more` tells whether others follow the last of them. -/
def Chained (k : ℕ × ℕ) : ℕ → Bool → List (Datagram α) → Prop
  | _, _, [] => False
  | off, more, [f] => Stands k off f ∧ f.header.moreFragments = more
  | off, more, f :: g :: rest =>
    Stands k off f ∧ f.header.moreFragments = true ∧
      Chained k (off + f.payload.length) more (g :: rest)

section Chain
variable {fs gs after before : List (Datagram α)} {f : Datagram α}

@[simp] theorem content_nil : content ([] : List (Datagram α)) = [] := rfl

@[simp] theorem content_cons : content (f :: fs) = f.payload ++ content fs := by simp [content]

@[simp] theorem content_append : content (fs ++ gs) = content fs ++ content gs := by
  simp [content]

theorem Chained.cons_iff (hne : gs ≠ []) :
    Chained k off more (f :: gs) ↔ Stands k off f ∧ f.header.moreFragments = true ∧
      Chained k (off + f.payload.length) more gs := by
  cases gs with
  | nil => exact absurd rfl hne
  | cons g rest => rfl

theorem Chained.ne_nil (h : Chained k off more fs) : fs ≠ [] := by
  rintro rfl
  exact h

theorem Chained.head (h : Chained k off more (f :: fs)) : Stands k off f := by
  cases fs with
  | nil => exact h.1
  | cons g rest => exact h.1

theorem Chained.append (h : Chained k off true fs)
    (h' : Chained k (off + (content fs).length) more gs) : Chained k off more (fs ++ gs) := by
  induction fs generalizing off with
  | nil => exact h.elim
  | cons f rest ih =>
    rw [content_cons, List.length_append, ← Nat.add_assoc] at h'
    rw [List.cons_append]
    cases rest with
    | nil =>
      rw [List.nil_append, Chained.cons_iff h'.ne_nil]
      exact ⟨h.1, h.2, by simpa using h'⟩
    | cons g rest =>
      rw [Chained.cons_iff (by simp)]
      exact ⟨h.1, h.2.1, ih h.2.2 h'⟩

theorem Chained.splice (h : Chained k off more (before ++ f :: after))
    (hg : Chained k f.header.fragmentOffset f.header.moreFragments gs)
    (hc : content gs = f.payload) : Chained k off more (before ++ gs ++ after) := by
  induction before generalizing off with
  | nil =>
    rw [List.nil_append] at h
    rw [List.nil_append]
    rw [h.head.offset] at hg
    cases after with
    | nil =>
      rw [h.2] at hg
      rwa [List.append_nil]
    | cons g rest =>
      rw [h.2.1] at hg
      apply hg.append
      rw [hc]
      exact h.2.2
  | cons e rest ih =>
    rw [List.cons_append, Chained.cons_iff (by simp)] at h
    rw [List.append_assoc, List.cons_append, Chained.cons_iff (by simp [hg.ne_nil]),
      ← List.append_assoc]
    exact ⟨h.1, h.2.1, ih h.2.2⟩

theorem Chained.stands (h : Chained k off more (before ++ f :: after)) :
    Stands k (off + (content before).length) f := by
  induction before generalizing off with
  | nil => exact h.head
  | cons e rest ih =>
    rw [List.cons_append, Chained.cons_iff (by simp)] at h
    rw [content_cons, List.length_append, ← Nat.add_assoc]
    exact ih h.2.2

theorem Chained.member (h : Chained k off more fs) (hm : f ∈ fs) :
    ∃ before after, fs = before ++ f :: after ∧
      Stands k (off + (content before).length) f := by
  obtain ⟨before, after, rfl⟩ := List.append_of_mem hm
  exact ⟨before, after, rfl, h.stands⟩

end Chain

section Fragmentation
variable {p : List α} {header : Ipv4Header}

theorem fragmentLoop_spec (size turns : ℕ) (hkey : header.key = k)
    (hoff : 8 ∣ header.fragmentOffset) (hfit : header.fragmentOffset + p.length ≤ 65515)
    (hwords : header.moreFragments = true → 8 ∣ p.length ∧ 0 < p.length) (hsize : 8 ∣ size)
    (hpos : 0 < size) (hsmall : n + size < 4294967296) (hn : 8 ∣ n) (hle : n ≤ p.length)
    (hlast : n = p.length → n = 0) (hturns : p.length - n < turns) :
    ∃ gs, fragmentLoop p header size turns n = some gs ∧
      Chained k (header.fragmentOffset + n) header.moreFragments gs ∧
      content gs = p.drop n ∧ ∀ g ∈ gs, g.payload.length ≤ size := by
  induction turns generalizing n with
  | zero => omega
  | succ turns ih =>
    have hadd : add32 n size = n + size := add32_of_lt hsmall
    have hrest : sub32 p.length n = p.length - n := sub32_of_le (by omega) hle
    have hset : ∀ h : Ipv4Header, h.setFragmentOffset (n + header.fragmentOffset) =
        some { h with fragmentOffset := header.fragmentOffset + n } := by
      intro h
      have hmod : (n + header.fragmentOffset) % 65536 = header.fragmentOffset + n := by omega
      rw [Ipv4Header.setFragmentOffset, hmod, if_pos (by omega)]
    simp only [fragmentLoop, hadd, hrest, hset]
    by_cases hmore : n + size < p.length
    · have hmod : (n + size) % 65536 = n + size := by omega
      obtain ⟨gs, h1, h2, h3, h4⟩ := ih (n := n + size) (by omega) (by omega) (by omega) (by omega)
        (by omega)
      simp only [hmore, decide_true, if_true, true_or, hmod, h1, Option.map_some]
      have hlen : ((p.drop n).take size).length = size := by
        rw [List.length_take, List.length_drop]
        omega
      refine ⟨_, rfl, ?_, ?_, ?_⟩
      · rw [Chained.cons_iff h2.ne_nil]
        refine ⟨⟨hkey, rfl, ?_, fun _ => ?_⟩, rfl, ?_⟩
        · omega
        · simp only [hlen]
          exact ⟨hsize, hpos⟩
        · simpa only [hlen, Nat.add_assoc] using h2
      · rw [content_cons, h3, ← List.drop_drop, List.take_append_drop]
      · intro g hg
        rcases List.mem_cons.mp hg with rfl | hg
        · exact Nat.le_of_eq hlen
        · exact h4 g hg
    · have hall : (p.drop n).take (p.length - n) = p.drop n := by
        rw [← List.length_drop, List.take_length]
      simp only [hmore, decide_false, Bool.false_eq_true, if_false, false_or, hall]
      refine ⟨_, rfl, ⟨⟨?_, ?_, ?_, ?_⟩, ?_⟩, ?_, ?_⟩
      · cases hm : header.moreFragments <;> simp [Ipv4Header.isLastFragment, hm,
          Ipv4Header.setMoreFragments, Ipv4Header.setLastFragment, Ipv4Header.setPayloadSize,
          Ipv4Header.key, ← hkey]
      · rfl
      · omega
      · intro hm
        have hflag : header.moreFragments = true := by
          by_contra hno
          simp [Ipv4Header.isLastFragment, hno, Ipv4Header.setLastFragment,
            Ipv4Header.setPayloadSize] at hm
        obtain ⟨h1, h2⟩ := hwords hflag
        rw [List.length_drop]
        omega
      · cases hm : header.moreFragments <;> simp [Ipv4Header.isLastFragment, hm,
          Ipv4Header.setMoreFragments, Ipv4Header.setLastFragment, Ipv4Header.setPayloadSize]
      · simp
      · intro g hg
        rw [List.mem_singleton.mp hg]
        simp only [List.length_drop]
        omega

theorem doFragmentation_spec {d : Datagram α} {mtu : ℕ} (hs : Stands k off d)
    (hfit : off + d.payload.length ≤ 65515) (hmtu : 68 ≤ mtu) (hword : mtu < 4294967296) :
    ∃ gs, doFragmentation d mtu = some gs ∧ Chained k off d.header.moreFragments gs ∧
      content gs = d.payload ∧ ∀ g ∈ gs, g.payload.length + 20 ≤ mtu := by
  have hsub : sub32 mtu Ipv4Header.serializedSize = mtu - 20 := sub32_of_le (by omega) (by
    simp only [Ipv4Header.serializedSize]
    omega)
  have hoff := hs.offset
  have haligned := hs.aligned
  obtain ⟨gs, h1, h2, h3, h4⟩ := fragmentLoop_spec ((mtu - 20) / 8 * 8)
    (d.payload.length + 1) (n := 0) hs.key (by rwa [hoff]) (by rwa [hoff]) hs.words (by omega)
    (by omega) (by omega) (by omega) (by omega) (by omega) (by omega)
  rw [doFragmentation, hsub]
  refine ⟨gs, h1, ?_, by simpa using h3, ?_⟩
  · rwa [hoff, Nat.add_zero] at h2
  · intro g hg
    have := h4 g hg
    omega

end Fragmentation
end NetGymSim.Internet.Ipv4L3Protocol

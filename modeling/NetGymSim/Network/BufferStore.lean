import NetGymSim.Network.BufferIsolation

/-!
# Buffers as byte lists

Whatever is done to the buffers of a family, each shows what a byte list of its own would hold.
-/

namespace NetGymSim.Network
open NetGymSim.Lib

namespace BufferHeap
open Buffer
variable {h : BufferHeap} {b o : Buffer} {rest bs : List Buffer} {data : BufferData}
  {new : List UInt8}

theorem content_getElem? (hs : Sound h bs) (hb : b ∈ bs) (i : ℕ) :
    (h.content b)[i]? =
      if i < b.zeroAreaStart - b.mStart then (h.bytes b.data)[b.mStart + i]?
      else if i < b.zeroAreaEnd - b.mStart then some 0
      else if i < b.getSize then
        (h.bytes b.data)[b.mStart + i - (b.zeroAreaEnd - b.zeroAreaStart)]?
      else none := by
  obtain ⟨hstart, hzeros, hstop⟩ := hs.shaped b hb
  have hlength := hs.used_length hb
  have hsize : b.getInternalSize = b.zeroAreaStart - b.mStart + (b.mEnd - b.zeroAreaEnd) := rfl
  have hused : ∀ k, (h.used b)[k]? =
      if k < b.getInternalSize then (h.bytes b.data)[b.mStart + k]? else none :=
    stretch_getElem? _ _ _
  rw [content, withZeros_getElem? (by omega), hused, hused, getSize]
  split_ifs <;> first | rfl | omega | (congr 1; omega)

theorem content_removeAtStart (hs : Sound h (b :: rest)) (start : ℕ) :
    h.content (b.removeAtStart start) = (h.content b).drop start := by
  have hb := hs.shaped b List.mem_cons_self
  have hs' := hs.shrink (removeAtStart_shrinks hb start)
  obtain ⟨hstart, hzeros, hstop⟩ := hb
  generalize hcut : b.removeAtStart start = cut at hs' ⊢
  apply List.ext_getElem?
  intro i
  rw [List.getElem?_drop, content_getElem? hs List.mem_cons_self,
    content_getElem? hs' List.mem_cons_self, getSize, getSize]
  clear hs hs'
  unfold removeAtStart at hcut
  dsimp only at hcut
  split_ifs at hcut <;> subst hcut <;> grind [raiseMax]

theorem content_removeAtEnd (hs : Sound h (b :: rest)) (stop : ℕ) :
    h.content (b.removeAtEnd stop) = (h.content b).take (b.getSize - stop) := by
  have hb := hs.shaped b List.mem_cons_self
  have hs' := hs.shrink (removeAtEnd_shrinks hb stop)
  obtain ⟨hstart, hzeros, hstop⟩ := hb
  generalize hcut : b.removeAtEnd stop = cut at hs' ⊢
  apply List.ext_getElem?
  intro i
  rw [List.getElem?_take, content_getElem? hs List.mem_cons_self,
    content_getElem? hs' List.mem_cons_self, getSize, getSize]
  clear hs hs'
  unfold removeAtEnd at hcut
  dsimp only at hcut
  split_ifs at hcut <;> subst hcut <;> grind [raiseMax]

/-- A buffer, new or changed, shows these bytes, and the others show what they did. -/
structure Becomes (h h' : BufferHeap) (rest : List Buffer) (b : Buffer) (shown : List UInt8) :
    Prop where
  isolated : Isolated h' (b :: rest)
  shows : h'.content b = shown
  kept : ∀ c ∈ rest, h'.content c = h.content c

theorem copy_becomes (hi : Isolated h bs) (ho : o ∈ bs) :
    ∃ h' b', h.copy o = some (h', b') ∧ Becomes h h' bs b' (h.content o) := by
  obtain ⟨h₁, hadd, _, hbytes⟩ := (hi.toSound.perm (List.perm_cons_erase ho)).share o.zeroAreaStart
  have hcopy : h.copy o = some (h₁, { o with maxZeroAreaStart := o.zeroAreaStart }) := by
    rw [copy, hadd]
    rfl
  have hkept : ∀ c, h₁.content c = h.content c := fun c => content_congr (used_congr (hbytes _))
  exact ⟨_, _, hcopy, hi.copy ho hcopy, hkept o, fun c _ => hkept c⟩

theorem assign_becomes (hi : Isolated h (b :: rest)) (ho : o ∈ b :: rest) :
    ∃ h' b', h.assign b o = some (h', b') ∧ Becomes h h' rest b' (h.content o) := by
  by_cases hsame : b.data = o.data
  · have hassign : h.assign b o = some (h.recommend b.maxZeroAreaStart, o) := by
      rw [assign, if_pos hsame]
      rfl
    exact ⟨_, _, hassign, hi.assign ho hassign, rfl, fun _ _ => rfl⟩
  · have hmem : o ∈ rest := (List.mem_cons.mp ho).resolve_left fun heq => hsame (heq ▸ rfl)
    obtain ⟨h₁, hrelease, hreleased⟩ := release_spec hi.toSound
    obtain ⟨h₂, hadd, _, hbytes⟩ :=
      (hreleased.sound.perm (List.perm_cons_erase hmem)).share o.maxZeroAreaStart
    have hassign : h.assign b o = some (h₂.recommend b.maxZeroAreaStart, o) := by
      rw [assign, if_neg hsame, hrelease, Option.bind_some, hadd]
      rfl
    have hkept : ∀ c ∈ rest, (h₂.recommend b.maxZeroAreaStart).content c = h.content c :=
      fun c hc => content_congr (used_congr ((hbytes c.data).trans (hreleased.bytes c hc)))
    exact ⟨_, _, hassign, hi.assign ho hassign, hkept o hmem, hkept⟩

theorem destroy_isolated (hi : Isolated h (b :: rest)) :
    ∃ h', h.destroy b = some h' ∧ Isolated h' rest ∧ ∀ c ∈ rest, h'.content c = h.content c := by
  have hraised : Sound (h.recommend b.maxZeroAreaStart) (b :: rest) :=
    hi.toSound.congr (fun _ => rfl) rfl
  obtain ⟨h', hrelease, hreleased⟩ := release_spec hraised
  exact ⟨h', hrelease, hi.destroy hrelease,
    fun c hc => content_congr (used_congr (hreleased.bytes c hc))⟩

theorem initializeWith_becomes (hi : Isolated h rest) (n : ℕ) :
    ∃ h' b', h.initializeWith n = some (h', b') ∧ Becomes h h' rest b' (List.replicate n 0) := by
  obtain ⟨h', b', hinit, hs, _, hbytes, hstart, hstop, hzeros⟩ := initializeWith_spec hi.toSound n
  refine ⟨h', b', hinit, hi.initializeWith hinit, ?_,
    fun c hc => content_congr (used_congr (hbytes c hc))⟩
  have hempty : h'.used b' = [] := by
    apply List.eq_nil_of_length_eq_zero
    rw [hs.used_length List.mem_cons_self, getInternalSize]
    omega
  rw [content, hempty, withZeros, List.take_nil, List.drop_nil, List.append_nil, List.nil_append,
    hzeros, Nat.add_sub_cancel_left]

theorem removeAtStart_becomes (hi : Isolated h (b :: rest)) (start : ℕ) :
    Becomes h h rest (b.removeAtStart start) ((h.content b).drop start) :=
  ⟨hi.removeAtStart start, content_removeAtStart hi.toSound start, fun _ _ => rfl⟩

theorem removeAtEnd_becomes (hi : Isolated h (b :: rest)) (stop : ℕ) :
    Becomes h h rest (b.removeAtEnd stop) ((h.content b).take (b.getSize - stop)) :=
  ⟨hi.removeAtEnd stop, content_removeAtEnd hi.toSound stop, fun _ _ => rfl⟩

theorem createFragment_becomes (hi : Isolated h bs) (ho : o ∈ bs) {start length : ℕ}
    (hsize : o.getSize < 4294967296) (hin : start + length ≤ o.getSize) :
    ∃ h' b', h.createFragment o start length = some (h', b') ∧
      Becomes h h' bs b' (((h.content o).drop start).take length) := by
  obtain ⟨h₁, tmp, hcopy, hbecomes⟩ := copy_becomes hi ho
  have hstart := removeAtStart_becomes hbecomes.isolated start
  have hstop := removeAtEnd_becomes hstart.isolated (sub32 o.getSize (start + length))
  have hlength := hstart.isolated.toSound.content_length List.mem_cons_self
  rw [hstart.shows, hbecomes.shows, List.length_drop, hi.toSound.content_length ho] at hlength
  have hleft : (tmp.removeAtStart start).getSize - sub32 o.getSize (start + length) = length := by
    rw [sub32_of_le hsize hin]
    omega
  refine ⟨h₁, _, ?_, hstop.isolated, ?_, hbecomes.kept⟩
  · rw [createFragment, hcopy]
    rfl
  · rw [hstop.shows, hstart.shows, hbecomes.shows, hleft]

/-- `CheckInternalState`. -/
def CheckInternalState (h : BufferHeap) (b : Buffer) : Prop :=
  ∃ data, h.block b.data = some data ∧ 0 < data.count ∧
    (b.mStart ≤ b.zeroAreaStart ∧ b.zeroAreaStart ≤ b.zeroAreaEnd ∧ b.zeroAreaEnd ≤ b.mEnd) ∧
    (data.dirtyStart ≤ b.mStart ∧ b.mEnd ≤ data.dirtyEnd) ∧
    b.mEnd - (b.zeroAreaEnd - b.zeroAreaStart) ≤ data.bytes.length ∧
    b.mStart ≤ data.bytes.length ∧ b.zeroAreaStart ≤ data.bytes.length

theorem Isolated.checkInternalState (hi : Isolated h bs) (hb : b ∈ bs) :
    CheckInternalState h b := by
  obtain ⟨data, hdata, hroom, hdirty⟩ := hi.held b hb
  have hclear := hi.clear b hb data hdata
  have hshaped := hi.shaped b hb
  have hend := hshaped.internalEnd
  obtain ⟨hstart, hzeros, hstop⟩ := hshaped
  simp only [getInternalEnd, getInternalSize] at hroom hend
  exact ⟨data, hdata, hi.toSound.count_pos hb hdata, ⟨hstart, hzeros, hstop⟩, ⟨hclear, hdirty⟩,
    hroom, by omega, by omega⟩

/-! ### Bytes are written where a buffer has grown -/

/-- Where no other buffer of the block has its bytes, they are written for this one alone. -/
theorem writeArray_apart {it : BufferIterator} (hi : Isolated h (b :: rest))
    (hdata : h.block b.data = some data) (hit : it.data = b.data)
    (hcheck : it.CheckNoZero it.current new.length)
    (hroom : it.place + new.length ≤ data.bytes.length)
    (hapart : ∀ c ∈ rest, c.data = b.data →
      c.getInternalEnd ≤ it.place ∨ it.place + new.length ≤ c.mStart) :
    ∃ h', h.writeArray it new = some h' ∧ Isolated h' (b :: rest) ∧
      h'.bytes b.data = splice data.bytes it.place new ∧ ∀ c ∈ rest, h'.used c = h.used c := by
  have hwrite : h.writeArray it new =
      some (h.setBlock b.data (some { data with bytes := splice data.bytes it.place new })) := by
    rw [writeArray, if_pos hcheck, hit]
    exact write_eq hdata hroom
  have hbytes := bytes_eq (block_setBlock_self hdata
    (some { data with bytes := splice data.bytes it.place new }))
  refine ⟨_, hwrite, hi.writeArray hwrite, hbytes, fun c hc => ?_⟩
  by_cases hcb : c.data = b.data
  · have hend := (hi.shaped c (List.mem_cons_of_mem b hc)).internalEnd
    have hcapart := hapart c hc hcb
    rw [used, used, hcb, hbytes, bytes_eq hdata]
    exact stretch_splice_outside hroom (by omega)
  · exact used_congr (bytes_setBlock_ne hcb _)

/-- `AddAtStart`, and `Write` at the new `Begin`. -/
def prepend (h : BufferHeap) (b : Buffer) (new : List UInt8) : Option (BufferHeap × Buffer) := do
  let (h, b) ← h.addAtStart b new.length
  let h ← h.writeArray b.first new
  some (h, b)

/-- `AddAtEnd`, and `Write` in front of the new `End`. -/
def extend (h : BufferHeap) (b : Buffer) (new : List UInt8) : Option (BufferHeap × Buffer) := do
  let (h, b) ← h.addAtEnd b new.length
  let i ← b.last.prev new.length
  let h ← h.writeArray i new
  some (h, b)

/-- The assertion of `AddAtStart` does not fail. -/
theorem Isolated.addAtStart_spec (hi : Isolated h (b :: rest)) (hdata : h.block b.data = some data)
    (n : ℕ) : ∃ h' b', h.addAtStart b n = some (h', b') ∧ Prepended h h' rest data b b' n := by
  by_cases hplace : n ≤ b.mStart ∧ ¬(1 < data.count ∧ data.dirtyStart < b.mStart)
  · have hpos := hi.toSound.count_pos List.mem_cons_self hdata
    have hclear := hi.clear b List.mem_cons_self data hdata
    exact addAtStart_inPlace hi.toSound hdata hplace (by omega)
  · exact addAtStart_moved hi.toSound hdata hplace

theorem prepend_becomes (hi : Isolated h (b :: rest)) (new : List UInt8) :
    ∃ h' b', h.prepend b new = some (h', b') ∧ Becomes h h' rest b' (new ++ h.content b) := by
  obtain ⟨data, hdata, _⟩ := hi.held b List.mem_cons_self
  obtain ⟨h₁, b₁, hadd, hp⟩ := hi.addAtStart_spec hdata new.length
  obtain ⟨hi₁, hapart⟩ := hi.addAtStart hadd
  have hshaped := hi₁.shaped b₁ List.mem_cons_self
  have hend := hshaped.internalEnd
  obtain ⟨hstart, hzeros, hstop⟩ := hshaped
  have hbefore := hp.before
  have hsize : b₁.getInternalSize = new.length + b.getInternalSize := by
    simp only [getInternalSize, hp.before, hp.behind]
    omega
  obtain ⟨data₁, hdata₁, hroom₁, _⟩ := hi₁.held b₁ List.mem_cons_self
  have hroom : b₁.mStart + new.length ≤ data₁.bytes.length := by omega
  have hcheck : b₁.first.CheckNoZero b₁.first.current new.length := by
    rintro (hlow | hhigh | hin)
    · exact absurd hlow (lt_irrefl _)
    · exact absurd hhigh (Nat.not_lt.mpr (show new.length ≤ b₁.mEnd by omega))
    · exact absurd hin.1 (Nat.not_lt.mpr (show new.length ≤ b₁.zeroAreaStart by omega))
  have hplace : b₁.first.place = b₁.mStart := if_pos hstart
  obtain ⟨h₂, hwrite, hi₂, hbytes, hkept⟩ := writeArray_apart hi₁ hdata₁ rfl hcheck (hplace ▸ hroom)
    fun c hc hcb => .inr (hplace ▸ hapart c hc hcb)
  rw [hplace] at hbytes
  refine ⟨h₂, b₁, ?_, hi₂, ?_, fun c hc => ?_⟩
  · rw [prepend, hadd]
    dsimp only [Option.bind_eq_bind, Option.bind_some]
    rw [hwrite, Option.bind_some]
  · have hused := hp.used
    have hlength := hi.toSound.used_length List.mem_cons_self
    rw [bytes_eq hdata₁] at hused
    rw [content, used, hbytes, hsize, stretch_add, stretch_splice_self hroom,
      stretch_splice_outside hroom (.inr (le_refl _)), hused]
    rw [content, withZeros, withZeros, hp.before, hp.zeros, Nat.add_comm,
      List.take_length_add_append, List.drop_length_add_append]
    simp only [List.append_assoc]
  · exact content_congr ((hkept c hc).trans (used_congr (hp.kept c hc)))

theorem extend_becomes (hi : Isolated h (b :: rest)) (new : List UInt8) :
    ∃ h' b', h.extend b new = some (h', b') ∧ Becomes h h' rest b' (h.content b ++ new) := by
  obtain ⟨data, hdata, _⟩ := hi.held b List.mem_cons_self
  obtain ⟨h₁, b₁, hadd, hx⟩ := addAtEnd_spec hi.toSound hdata new.length
  have hi₁ := hi.addAtEnd hadd
  have hshaped := hi₁.shaped b₁ List.mem_cons_self
  have hend := hshaped.internalEnd
  obtain ⟨hstart, hzeros, hstop⟩ := hshaped
  have hbehind := hx.behind
  have hsize : b₁.getInternalSize = b.getInternalSize + new.length := by
    simp only [getInternalSize, hx.before, hx.behind]
    omega
  have hinternal : b₁.getInternalEnd = b₁.mEnd - (b₁.zeroAreaEnd - b₁.zeroAreaStart) := rfl
  obtain ⟨data₁, hdata₁, hroom₁, _⟩ := hi₁.held b₁ List.mem_cons_self
  have hroom : b₁.mStart + b.getInternalSize + new.length ≤ data₁.bytes.length := by omega
  let it : BufferIterator := ⟨b₁.zeroAreaStart, b₁.zeroAreaEnd, b₁.mStart, b₁.mEnd,
    b₁.mEnd - new.length, b₁.data⟩
  have hprev : b₁.last.prev new.length = some it := if_pos (show new.length ≤ b₁.mEnd by omega)
  have hcheck : it.CheckNoZero it.current new.length := by
    rintro (hlow | hhigh | hin)
    · exact absurd hlow (Nat.not_lt.mpr (show b₁.mStart ≤ b₁.mEnd - new.length by omega))
    · exact absurd hhigh (Nat.not_lt.mpr (show new.length ≤ b₁.mEnd by omega))
    · exact absurd hin.2.1
        (Nat.not_lt.mpr (show b₁.zeroAreaEnd ≤ b₁.mEnd - new.length by omega))
  have hplace : it.place = b₁.mStart + b.getInternalSize := by
    show (if b₁.mEnd - new.length ≤ b₁.zeroAreaStart then b₁.mEnd - new.length
      else b₁.mEnd - new.length - (b₁.zeroAreaEnd - b₁.zeroAreaStart)) = _
    split_ifs <;> omega
  have hit : it.data = b₁.data := rfl
  obtain ⟨h₂, hwrite, hi₂, hbytes, hkept⟩ := writeArray_apart hi₁ hdata₁ hit hcheck
    (hplace ▸ hroom) fun c hc hcb => .inl (by
      have halone := hx.alone c hc hcb
      omega)
  rw [hplace] at hbytes
  refine ⟨h₂, b₁, ?_, hi₂, ?_, fun c hc => ?_⟩
  · rw [extend, hadd]
    dsimp only [Option.bind_eq_bind, Option.bind_some]
    rw [hprev, Option.bind_some, hwrite, Option.bind_some]
  · have hused := hx.used
    have hlength := hi.toSound.used_length List.mem_cons_self
    rw [bytes_eq hdata₁] at hused
    rw [content, used, hbytes, hsize, stretch_add, stretch_splice_outside hroom (.inl (le_refl _)),
      stretch_splice_self hroom, hused, withZeros_append hx.before hx.zeros]
    · rfl
    · rw [hlength]
      exact Nat.le_add_right _ _
  · exact content_congr ((hkept c hc).trans (used_congr (hx.kept c hc)))

end BufferHeap

/-- A call on the objects of a family, with what is written where a buffer grows. -/
inductive BufferCall
  | construct (dataSize : ℕ)
  | copy (o : ℕ)
  | assign (i o : ℕ)
  | destroy (i : ℕ)
  | addAtStart (i : ℕ) (new : List UInt8)
  | addAtEnd (i : ℕ) (new : List UInt8)
  | removeAtStart (i start : ℕ)
  | removeAtEnd (i stop : ℕ)
  | createFragment (i start length : ℕ)
  deriving DecidableEq

/-- Byte lists of their own; an object that was destroyed has none. -/
abbrev ByteLists := List (Option (List UInt8))

namespace ByteLists
variable (l : ByteLists)

def bytes (i : ℕ) : Option (List UInt8) := l[i]?.join

def change (i : ℕ) (f : List UInt8 → List UInt8) : ByteLists := l.set i ((l.bytes i).map f)

def next : BufferCall → ByteLists
  | .construct dataSize => l ++ [some (List.replicate dataSize 0)]
  | .copy o => l ++ [l.bytes o]
  | .assign i o => l.set i (l.bytes o)
  | .destroy i => l.set i none
  | .addAtStart i new => l.change i fun bytes => new ++ bytes
  | .addAtEnd i new => l.change i fun bytes => bytes ++ new
  | .removeAtStart i start => l.change i fun bytes => bytes.drop start
  | .removeAtEnd i stop => l.change i fun bytes => bytes.take (bytes.length - stop)
  | .createFragment i start length =>
      l ++ [(l.bytes i).map fun bytes => (bytes.drop start).take length]

/-- A fragment lies inside of the object. -/
def enabled : BufferCall → Prop
  | .construct _ => True
  | .assign i o => (l.bytes i).isSome ∧ (l.bytes o).isSome
  | .createFragment i start length => ∃ bytes, l.bytes i = some bytes ∧
      bytes.length < 4294967296 ∧ start + length ≤ bytes.length
  | .copy i | .destroy i | .addAtStart i _ | .addAtEnd i _
  | .removeAtStart i _ | .removeAtEnd i _ => (l.bytes i).isSome

def machine : Machine ByteLists BufferCall := ⟨enabled, next⟩

end ByteLists

namespace Buffers
open BufferHeap
variable {s : Buffers} {i : ℕ} {b : Buffer}

def call (s : Buffers) : BufferCall → Option Buffers
  | .construct dataSize => s.step (.construct dataSize true)
  | .copy o => s.step (.copy o)
  | .assign i o => s.step (.assign i o)
  | .destroy i => s.step (.destroy i)
  | .addAtStart i new => (s.object i).bind fun b => s.put i (s.heap.prepend b new)
  | .addAtEnd i new => (s.object i).bind fun b => s.put i (s.heap.extend b new)
  | .removeAtStart i start => s.step (.removeAtStart i start)
  | .removeAtEnd i stop => s.step (.removeAtEnd i stop)
  | .createFragment i start length => s.step (.createFragment i start length)

def calls : Machine Buffers BufferCall where
  enabled s e := (s.call e).isSome
  next s e := (s.call e).getD s

def contents (s : Buffers) : ByteLists := s.objects.map (Option.map s.heap.content)

def Refines (s : Buffers) (l : ByteLists) : Prop :=
  s.heap.Isolated (live s.objects) ∧ s.contents = l

theorem contents_bytes (s : Buffers) (i : ℕ) : s.contents.bytes i = s.shown i := by
  show (s.objects.map _)[i]?.join = _
  rw [List.getElem?_map, shown, object]
  cases s.objects[i]? with
  | none => rfl
  | some x => cases x <;> rfl

theorem object_of_bytes (hi : (s.contents.bytes i).isSome) :
    ∃ b, s.object i = some b ∧ s.contents.bytes i = some (s.heap.content b) := by
  rw [contents_bytes, shown] at hi
  obtain ⟨b, hb⟩ := Option.isSome_iff_exists.mp (Option.isSome_map.symm.trans hi)
  exact ⟨b, hb, (contents_bytes s i).trans (shown_eq hb)⟩

theorem contents_push {h' : BufferHeap} {b' : Buffer} {bytes : List UInt8}
    (hb : Becomes s.heap h' (live s.objects) b' bytes) :
    Refines ⟨h', s.objects ++ [some b']⟩ (s.contents ++ [some bytes]) := by
  refine ⟨?_, ?_⟩
  · have hperm : (live (s.objects ++ [some b'])).Perm (b' :: live s.objects) := by
      rw [live, List.filterMap_append]
      exact List.perm_append_comm
    exact hb.isolated.perm hperm.symm
  · show (s.objects ++ [some b']).map _ = s.objects.map _ ++ _
    rw [List.map_append, List.map_singleton, Option.map_some, hb.shows]
    refine congrArg (· ++ [some bytes]) (List.map_congr_left fun x hx => ?_)
    cases x with
    | none => rfl
    | some c => exact congrArg some (hb.kept c (List.mem_filterMap.mpr ⟨some c, hx, rfl⟩))

theorem contents_set {h' : BufferHeap} {x : Option Buffer}
    (hkept : ∀ c ∈ live (s.objects.set i none), h'.content c = s.heap.content c) :
    contents ⟨h', s.objects.set i x⟩ = s.contents.set i (x.map h'.content) := by
  apply List.ext_getElem?
  intro k
  show ((s.objects.set i x).map _)[k]? = ((s.objects.map _).set i _)[k]?
  rw [List.getElem?_map, List.getElem?_set, List.getElem?_set, List.getElem?_map, List.length_map]
  by_cases hik : i = k
  · rw [if_pos hik, if_pos hik]
    split_ifs <;> rfl
  · rw [if_neg hik, if_neg hik]
    cases hk : s.objects[k]? with
    | none => rfl
    | some y =>
      cases y with
      | none => rfl
      | some c =>
        have hc := mem_others (Ne.symm hik) (show s.object k = some c by rw [object, hk]; rfl)
        exact congrArg (some ∘ some) (hkept c hc)

theorem contents_put (hi : i < s.objects.length) {h' : BufferHeap} {b' : Buffer}
    {bytes : List UInt8} (hb : Becomes s.heap h' (live (s.objects.set i none)) b' bytes) :
    Refines ⟨h', s.objects.set i (some b')⟩ (s.contents.set i (some bytes)) := by
  refine ⟨hb.isolated.perm (live_set s.objects i hi b').symm, ?_⟩
  rw [contents_set hb.kept, Option.map_some, hb.shows]

theorem contents_change (hb : s.object i = some b) {h' : BufferHeap} {b' : Buffer}
    {f : List UInt8 → List UInt8}
    (hbecomes : Becomes s.heap h' (live (s.objects.set i none)) b' (f (s.heap.content b))) :
    Refines ⟨h', s.objects.set i (some b')⟩ (s.contents.change i f) := by
  rw [ByteLists.change, contents_bytes, shown_eq hb]
  exact contents_put (object_lt hb) hbecomes

/-- Every call goes through and does to the contents what it does to byte lists. -/
theorem Refines.call {l : ByteLists} (hr : s.Refines l) {e : BufferCall} (he : l.enabled e) :
    ∃ s', s.call e = some s' ∧ s'.Refines (l.next e) := by
  obtain ⟨hi, rfl⟩ := hr
  have hsplit : ∀ {i b}, s.object i = some b →
      s.heap.Isolated (b :: live (s.objects.set i none)) := fun hb => hi.perm (live_object hb)
  cases e with
  | construct dataSize =>
    obtain ⟨h', b', hinit, hbecomes⟩ := initializeWith_becomes hi dataSize
    exact ⟨_, congrArg s.push hinit, contents_push hbecomes⟩
  | copy o =>
    obtain ⟨b, hb, hbytes⟩ := object_of_bytes he
    obtain ⟨h', b', hcopy, hbecomes⟩ := copy_becomes hi (mem_live hb)
    refine ⟨_, ?_, hbytes ▸ contents_push hbecomes⟩
    rw [Buffers.call, step, hb, Option.bind_some, hcopy]
    rfl
  | assign i o =>
    obtain ⟨b, hb, _⟩ := object_of_bytes he.1
    obtain ⟨o', ho, hbytes⟩ := object_of_bytes he.2
    have hmem := (live_object hb).mem_iff.mp (mem_live ho)
    obtain ⟨h', b', hassign, hbecomes⟩ := assign_becomes (hsplit hb) hmem
    refine ⟨_, ?_, hbytes ▸ contents_put (object_lt hb) hbecomes⟩
    rw [Buffers.call, step, hb, ho]
    dsimp only [Option.bind_eq_bind, Option.bind_some]
    rw [hassign]
    rfl
  | destroy i =>
    obtain ⟨b, hb, _⟩ := object_of_bytes he
    obtain ⟨h', hdestroy, hrest, hkept⟩ := destroy_isolated (hsplit hb)
    refine ⟨_, ?_, hrest, contents_set (x := none) hkept⟩
    rw [Buffers.call, step, hb]
    dsimp only [Option.bind_eq_bind, Option.bind_some]
    rw [hdestroy]
    rfl
  | addAtStart i new =>
    obtain ⟨b, hb, _⟩ := object_of_bytes he
    obtain ⟨h', b', hadd, hbecomes⟩ := prepend_becomes (hsplit hb) new
    refine ⟨_, ?_, contents_change hb hbecomes⟩
    rw [Buffers.call, hb, Option.bind_some, hadd]
    rfl
  | addAtEnd i new =>
    obtain ⟨b, hb, _⟩ := object_of_bytes he
    obtain ⟨h', b', hadd, hbecomes⟩ := extend_becomes (hsplit hb) new
    refine ⟨_, ?_, contents_change hb hbecomes⟩
    rw [Buffers.call, hb, Option.bind_some, hadd]
    rfl
  | removeAtStart i start =>
    obtain ⟨b, hb, _⟩ := object_of_bytes he
    refine ⟨_, ?_, contents_change hb (removeAtStart_becomes (hsplit hb) start)⟩
    rw [Buffers.call, step, hb]
    rfl
  | removeAtEnd i stop =>
    obtain ⟨b, hb, _⟩ := object_of_bytes he
    have hbecomes := removeAtEnd_becomes (hsplit hb) stop
    rw [← hi.toSound.content_length (mem_live hb)] at hbecomes
    refine ⟨_, ?_, contents_change (f := fun bytes => bytes.take (bytes.length - stop)) hb hbecomes⟩
    rw [Buffers.call, step, hb]
    rfl
  | createFragment i start length =>
    obtain ⟨bytes, hbytes, hsize, hin⟩ := he
    obtain ⟨b, hb, hsame⟩ := object_of_bytes (Option.isSome_of_eq_some hbytes)
    obtain rfl := Option.some.inj (hbytes.symm.trans hsame)
    rw [hi.toSound.content_length (mem_live hb)] at hsize hin
    obtain ⟨h', b', hcut, hbecomes⟩ := createFragment_becomes hi (mem_live hb) hsize hin
    have hnext : s.contents.next (.createFragment i start length) =
        s.contents ++ [some (((s.heap.content b).drop start).take length)] := by
      rw [ByteLists.next, hbytes, Option.map_some]
    refine ⟨_, ?_, hnext ▸ contents_push hbecomes⟩
    rw [Buffers.call, step, hb, Option.bind_some, hcut]
    rfl

/-- Every run of calls on byte lists is one on buffers: no assertion fails, each object shows its
byte list, whatever was done to the others, and its internal state is right. -/
theorem buffers_isolated (unused : ℕ → ℕ → UInt8) {es : List BufferCall} {l : ByteLists}
    (hes : ByteLists.machine.Reaches [] es l) :
    ∃ s, calls.Reaches (start unused) es s ∧ s.contents = l ∧
      ∀ b ∈ live s.objects, CheckInternalState s.heap b := by
  have hstart : (start unused).Refines [] :=
    ⟨⟨start_sound unused, fun _ hb => absurd hb List.not_mem_nil⟩, rfl⟩
  obtain ⟨s, hreach, hi, hcontents⟩ := hes.simulate
    (R := fun l s => Refines s l) (N := calls) hstart (by
      intro l s e hr he
      obtain ⟨s', hcall, hr'⟩ := hr.call he
      have hnext : calls.next s e = s' := by
        show (s.call e).getD s = s'
        rw [hcall, Option.getD_some]
      exact ⟨Option.isSome_of_eq_some hcall, hnext ▸ hr'⟩)
  exact ⟨s, hreach, hcontents, fun b hb => hi.checkInternalState hb⟩

theorem buffers_isolated_shared :
    ∃ s, calls.Reaches (start fun _ _ => 0) [.construct 2, .addAtEnd 0 [1], .copy 0,
        .addAtStart 0 [2], .addAtStart 1 [3], .removeAtStart 0 2, .addAtEnd 1 [4]] s ∧
      s.contents = [some [0, 1], some [3, 0, 0, 1, 4]] ∧
        ∀ b ∈ live s.objects, CheckInternalState s.heap b :=
  buffers_isolated (fun _ _ => 0)
    (Machine.Permits.reaches ⟨trivial, rfl, rfl, rfl, rfl, rfl, rfl, trivial⟩)

end Buffers
end NetGymSim.Network

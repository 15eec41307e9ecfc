import NetGymSim.Lib.Machine
import NetGymSim.Network.BufferConcat

/-!
# Runs of buffers

Buffers are made, copied, cut, grown, written and destroyed in any order. Whatever the run, one
buffer added to another is a concatenation exactly when nothing behind a merged zero area is lost
and the two do not meet on one block.
-/

namespace NetGymSim.Network
open NetGymSim.Lib

/-- The objects by their number; one that is not initialized or is destroyed has no state. -/
structure Buffers where
  heap : BufferHeap
  objects : List (Option Buffer)

inductive BufferEvent
  | construct (dataSize : ℕ) (initialized : Bool)
  | copy (o : ℕ)
  | assign (i o : ℕ)
  | destroy (i : ℕ)
  | addAtStart (i start : ℕ)
  | addAtEnd (i stop : ℕ)
  | append (i o : ℕ)
  | removeAtStart (i start : ℕ)
  | removeAtEnd (i stop : ℕ)
  | createFragment (i start length : ℕ)
  | peekData (i : ℕ)
  | deserialize (i zeroDataLength : ℕ) (start stop : List UInt8)
  | writeU8 (i place : ℕ) (byte : UInt8)
  | writeFill (i place : ℕ) (byte : UInt8) (len : ℕ)
  | writeArray (i place : ℕ) (buffer : List UInt8)
  | writeRange (i place o first len : ℕ)

namespace Buffers
open BufferHeap
variable (s : Buffers)

def start (unused : ℕ → ℕ → UInt8) : Buffers := ⟨⟨[], [], 0, 0, unused⟩, []⟩

def object (i : ℕ) : Option Buffer := s.objects[i]?.join

def put (i : ℕ) (result : Option (BufferHeap × Buffer)) : Option Buffers :=
  result.map fun r => ⟨r.1, s.objects.set i (some r.2)⟩

def push (result : Option (BufferHeap × Buffer)) : Option Buffers :=
  result.map fun r => ⟨r.1, s.objects ++ [some r.2]⟩

def step : BufferEvent → Option Buffers
  | .construct dataSize initialized =>
      if initialized then s.push (s.heap.initializeWith dataSize)
      else some { s with objects := s.objects ++ [none] }
  | .copy o => (s.object o).bind fun o => s.push (s.heap.copy o)
  | .assign i o => do
      let b ← s.object i
      let o ← s.object o
      s.put i (s.heap.assign b o)
  | .destroy i => do
      let b ← s.object i
      let heap ← s.heap.destroy b
      some ⟨heap, s.objects.set i none⟩
  | .addAtStart i start => (s.object i).bind fun b => s.put i (s.heap.addAtStart b start)
  | .addAtEnd i stop => (s.object i).bind fun b => s.put i (s.heap.addAtEnd b stop)
  | .append i o =>
      -- both iterators of `Write` are on one block when a buffer is added to itself
      if i = o then none
      else do
        let b ← s.object i
        let o ← s.object o
        s.put i (s.heap.append b o)
  | .removeAtStart i start =>
      (s.object i).bind fun b => s.put i (some (s.heap, b.removeAtStart start))
  | .removeAtEnd i stop => (s.object i).bind fun b => s.put i (some (s.heap, b.removeAtEnd stop))
  | .createFragment i start length =>
      (s.object i).bind fun b => s.push (s.heap.createFragment b start length)
  | .peekData i => (s.object i).bind fun b => s.put i (s.heap.transformIntoRealBuffer b)
  | .deserialize i zeroDataLength start stop =>
      if i < s.objects.length then s.put i (s.heap.deserialize zeroDataLength start stop) else none
  | .writeU8 i place byte => do
      let b ← s.object i
      let it ← b.first.next place
      let heap ← s.heap.writeU8 it byte
      some { s with heap }
  | .writeFill i place byte len => do
      let b ← s.object i
      let it ← b.first.next place
      let heap ← s.heap.writeFill it byte len
      some { s with heap }
  | .writeArray i place buffer => do
      let b ← s.object i
      let it ← b.first.next place
      let heap ← s.heap.writeArray it buffer
      some { s with heap }
  | .writeRange i place o first len => do
      let b ← s.object i
      let o ← s.object o
      let it ← b.first.next place
      let start ← o.first.next first
      let stop ← start.next len
      let heap ← s.heap.writeRange it start stop
      some { s with heap }

def machine : Machine Buffers BufferEvent where
  enabled s e := (s.step e).isSome
  next s e := (s.step e).getD s

def shown (i : ℕ) : Option (List UInt8) := (s.object i).map s.heap.content

/-- One object is added to another: no assertion fails, the one shows both byte sequences, and no
other object changes or shows something else. -/
def Appends (i o : ℕ) : Prop :=
  ∃ s', s.step (.append i o) = some s' ∧
    s'.shown i = (s.shown i).bind (fun x => (s.shown o).map fun y => x ++ y) ∧
    ∀ k, k ≠ i → s'.object k = s.object k ∧ s'.shown k = s.shown k

end Buffers

namespace BufferHeap
open Buffer
variable {h h' : BufferHeap} {b b' o c : Buffer} {rest bs cs : List Buffer}
  {data : BufferData} {d e n : ℕ} {new : List UInt8}

theorem Sound.sub (hs : Sound h bs) (hmem : ∀ c ∈ cs, c ∈ bs) (hrefs : ∀ d, refs cs d ≤ refs bs d) :
    Sound h cs where
  shaped c hc := hs.shaped c (hmem c hc)
  held c hc := hs.held c (hmem c hc)
  front c hc data hdata hend c' hc' :=
    hs.front c (hmem c hc) data hdata hend c' (hmem c' hc')
  counts d data hdata := (hrefs d).trans (hs.counts d data hdata)
  free := hs.free
  nodup := hs.nodup

theorem Sound.written (hs : Sound h bs) {a : ℕ} (hwrite : h.write d a new = some h') :
    Sound h' bs := by
  unfold BufferHeap.write at hwrite
  cases hdata : h.block d with
  | none =>
    rw [hdata] at hwrite
    cases hwrite
  | some data =>
    rw [hdata, Option.bind_eq_bind, Option.bind_some] at hwrite
    cases hbytes : writeAt data.bytes a new with
    | none =>
      rw [hbytes] at hwrite
      cases hwrite
    | some bytes =>
      rw [hbytes] at hwrite
      obtain rfl := Option.some.inj hwrite
      have hself := block_setBlock_self hdata (some { data with bytes })
      refine hs.transfer (fun c hc x hx => ?_) (fun e x hx => ?_) (fun e he => ?_) hs.nodup
      · by_cases hcd : c.data = d
        · rw [hcd, hdata] at hx
          rw [hcd, ← Option.some.inj hx]
          exact ⟨_, hself, writeAt_length hbytes, rfl⟩
        · exact ⟨x, (block_setBlock_ne hcd _).trans hx, rfl, rfl⟩
      · by_cases hed : e = d
        · rw [hed, hself] at hx
          rw [hed, ← Option.some.inj hx]
          exact hs.counts d data hdata
        · exact hs.counts e x ((block_setBlock_ne hed _).symm.trans hx)
      · obtain ⟨x, hx, hcount⟩ := hs.free e he
        by_cases hed : e = d
        · rw [hed, hdata] at hx
          obtain rfl := Option.some.inj hx
          rw [hed]
          exact ⟨_, hself, hcount⟩
        · exact ⟨x, (block_setBlock_ne hed _).trans hx, hcount⟩

theorem Sound.memcpy (hs : Sound h bs) {a m : ℕ} (hcopy : h.memcpy d a e m n = some h') :
    Sound h' bs := by
  obtain ⟨new, _, hwrite⟩ := Option.bind_eq_some_iff.mp hcopy
  exact hs.written hwrite

theorem Sound.writeU8 (hs : Sound h bs) {it : BufferIterator} {byte : UInt8}
    (hwrite : h.writeU8 it byte = some h') : Sound h' bs := by
  unfold BufferHeap.writeU8 at hwrite
  split_ifs at hwrite
  · exact hs.written hwrite
  · exact hs.written hwrite

theorem Sound.writeFill (hs : Sound h bs) {it : BufferIterator} {byte : UInt8}
    (hwrite : h.writeFill it byte n = some h') : Sound h' bs := by
  unfold BufferHeap.writeFill at hwrite
  split_ifs at hwrite
  exact hs.written hwrite

theorem Sound.writeArray (hs : Sound h bs) {it : BufferIterator}
    (hwrite : h.writeArray it new = some h') : Sound h' bs := by
  unfold BufferHeap.writeArray at hwrite
  split_ifs at hwrite
  exact hs.written hwrite

theorem Sound.writeRange (hs : Sound h bs) {it start stop : BufferIterator}
    (hwrite : h.writeRange it start stop = some h') : Sound h' bs := by
  unfold BufferHeap.writeRange at hwrite
  dsimp only at hwrite
  split_ifs at hwrite
  all_goals
    obtain ⟨h₁, hfirst, hwrite⟩ := Option.bind_eq_some_iff.mp hwrite
    obtain ⟨h₂, hsecond, hthird⟩ := Option.bind_eq_some_iff.mp hwrite
    exact ((hs.memcpy hfirst).written hsecond).memcpy hthird

theorem Sound.copy (hs : Sound h bs) (ho : o ∈ bs) (hcopy : h.copy o = some (h', b')) :
    Sound h' (b' :: bs) ∧ b'.mStart = o.mStart ∧ b'.mEnd = o.mEnd := by
  have hperm := List.perm_cons_erase ho
  obtain ⟨h₁, hadd, hsound, _⟩ := (hs.perm hperm).share o.zeroAreaStart
  rw [BufferHeap.copy, hadd] at hcopy
  obtain ⟨rfl, rfl⟩ := Prod.mk.inj (Option.some.inj hcopy)
  exact ⟨hsound.perm (hperm.symm.cons _), rfl, rfl⟩

theorem Sound.assign (hs : Sound h (b :: rest)) (ho : o ∈ b :: rest)
    (hassign : h.assign b o = some (h', b')) : Sound h' (b' :: rest) := by
  unfold BufferHeap.assign at hassign
  by_cases hsame : b.data = o.data
  · rw [if_pos hsame] at hassign
    obtain ⟨rfl, rfl⟩ := Prod.mk.inj (Option.some.inj hassign)
    refine Sound.congr (h := h) ?_ (fun _ => rfl) rfl
    refine hs.sub (fun c hc => ?_) fun d => ?_
    · cases List.mem_cons.mp hc with
      | inl heq => exact heq ▸ ho
      | inr hmem => exact List.mem_cons_of_mem b hmem
    · rw [refs_cons, refs_cons, hsame]
  · rw [if_neg hsame] at hassign
    have hmem : o ∈ rest := (List.mem_cons.mp ho).resolve_left fun heq => hsame (heq ▸ rfl)
    obtain ⟨h₁, hrelease, hreleased⟩ := release_spec hs
    have hperm := List.perm_cons_erase hmem
    obtain ⟨h₂, hadd, hsound, _⟩ := (hreleased.sound.perm hperm).share o.maxZeroAreaStart
    rw [hrelease, Option.bind_some, hadd] at hassign
    obtain ⟨rfl, rfl⟩ := Prod.mk.inj (Option.some.inj hassign)
    exact (hsound.perm (hperm.symm.cons _)).congr (fun _ => rfl) rfl

theorem Sound.destroy (hs : Sound h (b :: rest)) (hdestroy : h.destroy b = some h') :
    Sound h' rest := by
  have hraised : Sound (h.recommend b.maxZeroAreaStart) (b :: rest) :=
    hs.congr (fun _ => rfl) rfl
  obtain ⟨h₁, hrelease, hreleased⟩ := release_spec hraised
  rw [BufferHeap.destroy, hrelease] at hdestroy
  exact Option.some.inj hdestroy ▸ hreleased.sound

theorem Sound.addAtStart (hs : Sound h (b :: rest)) (hadd : h.addAtStart b n = some (h', b')) :
    Sound h' (b' :: rest) := by
  obtain ⟨data, hdata, _⟩ := hs.held b List.mem_cons_self
  cases addAtStart_spec hs hdata n with
  | inl hfails =>
    rw [hfails.1] at hadd
    cases hadd
  | inr hdone =>
    obtain ⟨h₁, b₁, hsome, hp⟩ := hdone
    rw [hsome] at hadd
    obtain ⟨rfl, rfl⟩ := Prod.mk.inj (Option.some.inj hadd)
    exact hp.sound

theorem Sound.addAtEnd (hs : Sound h (b :: rest)) (hadd : h.addAtEnd b n = some (h', b')) :
    Sound h' (b' :: rest) := by
  obtain ⟨data, hdata, _⟩ := hs.held b List.mem_cons_self
  obtain ⟨h₁, b₁, hsome, hx⟩ := addAtEnd_spec hs hdata n
  rw [hsome] at hadd
  obtain ⟨rfl, rfl⟩ := Prod.mk.inj (Option.some.inj hadd)
  exact hx.sound

theorem Sound.createFragment (hs : Sound h bs) (ho : o ∈ bs) {start length : ℕ}
    (hfragment : h.createFragment o start length = some (h', b')) : Sound h' (b' :: bs) := by
  obtain ⟨⟨h₁, tmp⟩, hcopy, hcut⟩ := Option.bind_eq_some_iff.mp hfragment
  obtain ⟨rfl, rfl⟩ := Prod.mk.inj (Option.some.inj hcut)
  have hsound := (hs.copy ho hcopy).1
  have hcut := hsound.shrink (removeAtStart_shrinks (hsound.shaped tmp List.mem_cons_self) start)
  exact hcut.shrink (removeAtEnd_shrinks (hcut.shaped _ List.mem_cons_self) _)

theorem Sound.transform (hs : Sound h (b :: rest))
    (htransform : h.transformIntoRealBuffer b = some (h', b')) : Sound h' (b' :: rest) := by
  by_cases hzeros : b.zeroAreaEnd - b.zeroAreaStart ≠ 0
  · obtain ⟨h₁, b₁, hsome, hflat⟩ := transform_moves hs hzeros
    rw [hsome] at htransform
    obtain ⟨rfl, rfl⟩ := Prod.mk.inj (Option.some.inj htransform)
    exact hflat.sound
  · obtain ⟨h₁, hsome, hblock, hfree⟩ := transform_stays hs hzeros
    rw [hsome] at htransform
    obtain ⟨rfl, rfl⟩ := Prod.mk.inj (Option.some.inj htransform)
    exact (hs.refit_max b.zeroAreaStart).congr hblock hfree

theorem Sound.deserialize (hs : Sound h rest) {zeros : ℕ} {start stop : List UInt8}
    (hdeserialize : h.deserialize zeros start stop = some (h', b')) : Sound h' (b' :: rest) := by
  obtain ⟨h₁, b₁, hinit, hsound, _⟩ := initializeWith_spec hs zeros
  unfold BufferHeap.deserialize at hdeserialize
  rw [hinit] at hdeserialize
  dsimp only [Option.bind_eq_bind, Option.bind_some] at hdeserialize
  obtain ⟨⟨h₂, b₂⟩, hstart, hrest⟩ := Option.bind_eq_some_iff.mp hdeserialize
  obtain ⟨h₃, hwrite, hrest⟩ := Option.bind_eq_some_iff.mp hrest
  obtain ⟨⟨h₄, b₄⟩, hstop, hrest⟩ := Option.bind_eq_some_iff.mp hrest
  obtain ⟨it, _, hrest⟩ := Option.bind_eq_some_iff.mp hrest
  obtain ⟨h₅, hlast, hrest⟩ := Option.bind_eq_some_iff.mp hrest
  obtain ⟨rfl, rfl⟩ := Prod.mk.inj (Option.some.inj hrest)
  exact (((hsound.addAtStart hstart).writeArray hwrite).addAtEnd hstop).writeArray hlast

end BufferHeap

namespace Buffers
open BufferHeap
variable {s s' : Buffers} {i j : ℕ} {b o : Buffer} {x : Option Buffer}

def live (objects : List (Option Buffer)) : List Buffer := objects.filterMap id

theorem live_set (objects : List (Option Buffer)) :
    ∀ i < objects.length, ∀ b : Buffer,
      (live (objects.set i (some b))).Perm (b :: live (objects.set i none)) := by
  induction objects with
  | nil => exact fun i hi => absurd hi (Nat.not_lt_zero i)
  | cons x objects ih =>
    intro i hi b
    cases i with
    | zero => exact .refl _
    | succ i =>
      have htail := ih i (Nat.lt_of_succ_lt_succ hi) b
      cases x with
      | none => exact htail
      | some c => exact (htail.cons c).trans (List.Perm.swap b c _)

theorem object_eq (hb : s.object i = some b) : s.objects[i]? = some (some b) :=
  Option.join_eq_some_iff.mp hb

theorem object_lt (hb : s.object i = some b) : i < s.objects.length :=
  (List.getElem?_eq_some_iff.mp (object_eq hb)).1

theorem live_object (hb : s.object i = some b) :
    (live s.objects).Perm (b :: live (s.objects.set i none)) := by
  have hlt := object_lt hb
  have hget : s.objects[i] = some b :=
    Option.some.inj ((List.getElem?_eq_getElem hlt).symm.trans (object_eq hb))
  have hself : s.objects.set i (some b) = s.objects := by rw [← hget, List.set_getElem_self]
  rw [← hself, List.set_set]
  exact live_set s.objects i hlt b

theorem mem_live (hb : s.object i = some b) : b ∈ live s.objects :=
  (live_object hb).mem_iff.mpr List.mem_cons_self

theorem mem_others (hij : j ≠ i) (ho : s.object j = some o) : o ∈ live (s.objects.set i none) := by
  have hget : (s.objects.set i none)[j]? = some (some o) := by
    rw [List.getElem?_set_ne hij.symm, object_eq ho]
  exact List.mem_filterMap.mpr ⟨some o, List.mem_of_getElem? hget, rfl⟩

theorem object_of_mem_others (hc : o ∈ live (s.objects.set i none)) :
    ∃ k, k ≠ i ∧ s.object k = some o := by
  obtain ⟨x, hx, rfl⟩ := List.mem_filterMap.mp hc
  obtain ⟨k, hk⟩ := List.getElem?_of_mem hx
  by_cases hik : i = k
  · rw [List.getElem?_set, if_pos hik] at hk
    split_ifs at hk
    cases hk
  · rw [List.getElem?_set_ne hik] at hk
    exact ⟨k, Ne.symm hik, Option.join_eq_some_iff.mpr hk⟩

def Sound (s : Buffers) : Prop := s.heap.Sound (live s.objects)

theorem Sound.split (hs : s.Sound) (hb : s.object i = some b) :
    s.heap.Sound (b :: live (s.objects.set i none)) := hs.perm (live_object hb)

theorem Sound.put (hi : i < s.objects.length) {r : Option (BufferHeap × Buffer)}
    (hr : ∀ h' b', r = some (h', b') → h'.Sound (b' :: live (s.objects.set i none)))
    (hput : s.put i r = some s') : s'.Sound := by
  obtain ⟨⟨h', b'⟩, hresult, rfl⟩ := Option.map_eq_some_iff.mp hput
  exact (hr h' b' hresult).perm (live_set s.objects i hi b').symm

theorem Sound.push {r : Option (BufferHeap × Buffer)}
    (hr : ∀ h' b', r = some (h', b') → h'.Sound (b' :: live s.objects))
    (hpush : s.push r = some s') : s'.Sound := by
  obtain ⟨⟨h', b'⟩, hresult, rfl⟩ := Option.map_eq_some_iff.mp hpush
  have hperm : (live (s.objects ++ [some b'])).Perm (b' :: live s.objects) := by
    rw [live, List.filterMap_append]
    exact List.perm_append_comm
  exact (hr h' b' hresult).perm hperm.symm

theorem start_sound (unused : ℕ → ℕ → UInt8) : (start unused).Sound where
  shaped := nofun
  held := nofun
  front := nofun
  counts _ _ _ := Nat.zero_le _
  free := nofun
  nodup := List.nodup_nil

theorem Sound.step (hs : s.Sound) {e : BufferEvent} (hstep : s.step e = some s') : s'.Sound := by
  cases e with
  | construct dataSize initialized =>
    cases initialized with
    | true =>
      refine Sound.push (fun h' b' hinit => ?_) hstep
      obtain ⟨h₁, b₁, hsome, hsound, _⟩ := initializeWith_spec hs dataSize
      rw [hinit] at hsome
      obtain ⟨rfl, rfl⟩ := Prod.mk.inj (Option.some.inj hsome)
      exact hsound
    | false =>
      have hlive : live (s.objects ++ [none]) = live s.objects := by
        rw [live, List.filterMap_append]
        exact List.append_nil _
      rw [← Option.some.inj hstep]
      show s.heap.Sound (live (s.objects ++ [none]))
      rw [hlive]
      exact hs
  | copy o =>
    obtain ⟨o, ho, hpush⟩ := Option.bind_eq_some_iff.mp hstep
    exact Sound.push (fun h' b' hcopy => (BufferHeap.Sound.copy hs (mem_live ho) hcopy).1) hpush
  | assign i o =>
    obtain ⟨b, hb, hstep⟩ := Option.bind_eq_some_iff.mp hstep
    obtain ⟨o, ho, hput⟩ := Option.bind_eq_some_iff.mp hstep
    have hmem := (live_object hb).mem_iff.mp (mem_live ho)
    exact Sound.put (object_lt hb) (fun h' b' hassign => (hs.split hb).assign hmem hassign) hput
  | destroy i =>
    obtain ⟨b, hb, hstep⟩ := Option.bind_eq_some_iff.mp hstep
    obtain ⟨heap, hdestroy, hstep⟩ := Option.bind_eq_some_iff.mp hstep
    exact Option.some.inj hstep ▸ (hs.split hb).destroy hdestroy
  | addAtStart i start =>
    obtain ⟨b, hb, hput⟩ := Option.bind_eq_some_iff.mp hstep
    exact Sound.put (object_lt hb) (fun h' b' hadd => (hs.split hb).addAtStart hadd) hput
  | addAtEnd i stop =>
    obtain ⟨b, hb, hput⟩ := Option.bind_eq_some_iff.mp hstep
    exact Sound.put (object_lt hb) (fun h' b' hadd => (hs.split hb).addAtEnd hadd) hput
  | append i o =>
    dsimp only [Buffers.step] at hstep
    split_ifs at hstep with hio
    obtain ⟨b, hb, hstep⟩ := Option.bind_eq_some_iff.mp hstep
    obtain ⟨x, hx, hput⟩ := Option.bind_eq_some_iff.mp hstep
    exact Sound.put (object_lt hb) (fun h' b' happend =>
      append_sound (hs.split hb) (mem_others (Ne.symm hio) hx) happend) hput
  | removeAtStart i start =>
    obtain ⟨b, hb, hput⟩ := Option.bind_eq_some_iff.mp hstep
    refine Sound.put (object_lt hb) (fun h' b' hremove => ?_) hput
    obtain ⟨rfl, rfl⟩ := Prod.mk.inj (Option.some.inj hremove)
    exact (hs.split hb).shrink
      (Buffer.removeAtStart_shrinks (hs.shaped b (mem_live hb)) start)
  | removeAtEnd i stop =>
    obtain ⟨b, hb, hput⟩ := Option.bind_eq_some_iff.mp hstep
    refine Sound.put (object_lt hb) (fun h' b' hremove => ?_) hput
    obtain ⟨rfl, rfl⟩ := Prod.mk.inj (Option.some.inj hremove)
    exact (hs.split hb).shrink (Buffer.removeAtEnd_shrinks (hs.shaped b (mem_live hb)) stop)
  | createFragment i start length =>
    obtain ⟨b, hb, hpush⟩ := Option.bind_eq_some_iff.mp hstep
    exact Sound.push (fun h' b' hfragment =>
      BufferHeap.Sound.createFragment hs (mem_live hb) hfragment) hpush
  | peekData i =>
    obtain ⟨b, hb, hput⟩ := Option.bind_eq_some_iff.mp hstep
    exact Sound.put (object_lt hb) (fun h' b' hreal => (hs.split hb).transform hreal) hput
  | deserialize i zeroDataLength start stop =>
    dsimp only [Buffers.step] at hstep
    split_ifs at hstep with hi
    refine Sound.put hi (fun h' b' hdone => ?_) hstep
    have hothers : s.heap.Sound (live (s.objects.set i none)) := by
      cases hget : s.objects[i] with
      | none => rwa [← hget, List.set_getElem_self]
      | some b =>
        have hb : s.object i = some b := by rw [object, List.getElem?_eq_getElem hi, hget]; rfl
        exact (hs.split hb).tail
    exact hothers.deserialize hdone
  | writeU8 i place byte =>
    obtain ⟨b, hb, hstep⟩ := Option.bind_eq_some_iff.mp hstep
    obtain ⟨it, _, hstep⟩ := Option.bind_eq_some_iff.mp hstep
    obtain ⟨heap, hwrite, hstep⟩ := Option.bind_eq_some_iff.mp hstep
    exact Option.some.inj hstep ▸ BufferHeap.Sound.writeU8 hs hwrite
  | writeFill i place byte len =>
    obtain ⟨b, hb, hstep⟩ := Option.bind_eq_some_iff.mp hstep
    obtain ⟨it, _, hstep⟩ := Option.bind_eq_some_iff.mp hstep
    obtain ⟨heap, hwrite, hstep⟩ := Option.bind_eq_some_iff.mp hstep
    exact Option.some.inj hstep ▸ BufferHeap.Sound.writeFill hs hwrite
  | writeArray i place buffer =>
    obtain ⟨b, hb, hstep⟩ := Option.bind_eq_some_iff.mp hstep
    obtain ⟨it, _, hstep⟩ := Option.bind_eq_some_iff.mp hstep
    obtain ⟨heap, hwrite, hstep⟩ := Option.bind_eq_some_iff.mp hstep
    exact Option.some.inj hstep ▸ BufferHeap.Sound.writeArray hs hwrite
  | writeRange i place o first len =>
    obtain ⟨b, hb, hstep⟩ := Option.bind_eq_some_iff.mp hstep
    obtain ⟨o, _, hstep⟩ := Option.bind_eq_some_iff.mp hstep
    obtain ⟨it, _, hstep⟩ := Option.bind_eq_some_iff.mp hstep
    obtain ⟨start, _, hstep⟩ := Option.bind_eq_some_iff.mp hstep
    obtain ⟨stop, _, hstep⟩ := Option.bind_eq_some_iff.mp hstep
    obtain ⟨heap, hwrite, hstep⟩ := Option.bind_eq_some_iff.mp hstep
    exact Option.some.inj hstep ▸ BufferHeap.Sound.writeRange hs hwrite

theorem reaches_sound {unused : ℕ → ℕ → UInt8} {es : List BufferEvent}
    (hes : machine.Reaches (start unused) es s) : s.Sound := by
  apply hes.invariant (start_sound unused)
  intro s e hs he
  obtain ⟨s', hs'⟩ := Option.isSome_iff_exists.mp he
  show ((s.step e).getD s).Sound
  rw [hs', Option.getD_some]
  exact hs.step hs'

theorem shown_eq (hb : s.object i = some b) : s.shown i = some (s.heap.content b) := by
  rw [shown, hb]
  rfl

theorem appends_iff_concatenates (hij : i ≠ j) (hb : s.object i = some b)
    (ho : s.object j = some o) :
    s.Appends i j ↔ s.heap.Concatenates b o (live (s.objects.set i none)) := by
  have hstep : s.step (.append i j) = s.put i (s.heap.append b o) := by
    dsimp only [Buffers.step]
    rw [if_neg hij, hb, ho]
    rfl
  have hself : ∀ h' b', object ⟨h', s.objects.set i (some b')⟩ i = some b' := fun h' b' => by
    rw [object, List.getElem?_set_self (object_lt hb)]
    rfl
  have hother : ∀ h' b' k, k ≠ i → object ⟨h', s.objects.set i (some b')⟩ k = s.object k :=
    fun h' b' k hk => by
      rw [object, List.getElem?_set_ne hk.symm]
      rfl
  constructor
  · rintro ⟨s', hsome, hshown, hkept⟩
    rw [hstep] at hsome
    obtain ⟨⟨h', b'⟩, happend, rfl⟩ := Option.map_eq_some_iff.mp hsome
    rw [shown_eq hb, shown_eq ho, shown_eq (hself h' b')] at hshown
    refine ⟨h', b', happend, Option.some.inj hshown, fun c hc => ?_⟩
    obtain ⟨k, hk, hc⟩ := object_of_mem_others hc
    have hsame := (hkept k hk).2
    rw [shown_eq hc, shown_eq ((hother h' b' k hk).trans hc)] at hsame
    exact Option.some.inj hsame
  · rintro ⟨h', b', happend, hcat, hkept⟩
    refine ⟨_, by rw [hstep, happend]; rfl, ?_, fun k hk => ⟨hother h' b' k hk, ?_⟩⟩
    · rw [shown_eq hb, shown_eq ho, shown_eq (hself h' b')]
      exact congrArg some hcat
    · rw [shown, shown, hother h' b' k hk]
      cases hk' : s.object k with
      | none => rfl
      | some c => exact congrArg some (hkept c (mem_others hk hk'))

def twoZeroAreas : List BufferEvent := [.construct 3 true, .construct 2 true]

def byteBehindZeros : List BufferEvent :=
  [.construct 0 true, .construct 10 true, .addAtEnd 1 1, .writeU8 1 10 0xAB]

def copied : List BufferEvent := [.construct 0 true, .addAtEnd 0 1, .writeU8 0 0 0xAB, .copy 0]

end Buffers

end NetGymSim.Network

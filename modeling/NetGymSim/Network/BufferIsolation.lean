import NetGymSim.Network.BufferRuns

/-!
# Buffers that share a block

No buffer begins before the dirty area of its block. So one that begins there, or is alone, may
grow in place: the bytes it gains belong to no other.
-/

namespace NetGymSim.Network
open NetGymSim.Lib

namespace Buffer
variable {b : Buffer} {u : List UInt8}

theorem removeAtStart_later (hb : b.Shaped) (start : ℕ) :
    b.mStart ≤ (b.removeAtStart start).mStart := by
  obtain ⟨hstart, hzeros, hstop⟩ := hb
  unfold removeAtStart
  dsimp only
  split_ifs <;> simp only [raiseMax] <;> omega

theorem removeAtEnd_start (stop : ℕ) : (b.removeAtEnd stop).mStart = b.mStart := by
  unfold removeAtEnd
  dsimp only
  split_ifs <;> rfl

theorem withZeros_getElem? (hu : b.zeroAreaStart - b.mStart ≤ u.length) (i : ℕ) :
    (b.withZeros u)[i]? =
      if i < b.zeroAreaStart - b.mStart then u[i]?
      else if i < b.zeroAreaStart - b.mStart + (b.zeroAreaEnd - b.zeroAreaStart) then some 0
      else u[i - (b.zeroAreaEnd - b.zeroAreaStart)]? := by
  have htake := List.length_take_of_le hu
  unfold withZeros
  split_ifs with hbefore hinside
  · rw [List.append_assoc, List.getElem?_append_left (by omega), List.getElem?_take_of_lt hbefore]
  · rw [List.append_assoc, List.getElem?_append_right (by omega), htake,
      List.getElem?_append_left (by rw [List.length_replicate]; omega),
      List.getElem?_replicate_of_lt (by omega)]
  · have hfront : (u.take (b.zeroAreaStart - b.mStart) ++
        List.replicate (b.zeroAreaEnd - b.zeroAreaStart) (0 : UInt8)).length =
          b.zeroAreaStart - b.mStart + (b.zeroAreaEnd - b.zeroAreaStart) := by
      rw [List.length_append, htake, List.length_replicate]
    rw [List.getElem?_append_right (by omega), hfront, List.getElem?_drop]
    congr 1
    omega

end Buffer

namespace BufferHeap
open Buffer
variable {h h' h'' : BufferHeap} {b b' c o : Buffer} {rest bs : List Buffer}
  {data : BufferData} {d e n : ℕ} {new : List UInt8}

/-- The block, if it is still there, has its dirty area begin where it did. -/
def KeepsFront (h h' : BufferHeap) (e : ℕ) : Prop :=
  ∀ data', h'.block e = some data' →
    ∃ data, h.block e = some data ∧ data.dirtyStart = data'.dirtyStart

namespace KeepsFront

theorem of_eq (heq : h'.block e = h.block e) : KeepsFront h h' e :=
  fun data' hdata' => ⟨data', heq ▸ hdata', rfl⟩

theorem trans (h₁ : KeepsFront h h' e) (h₂ : KeepsFront h' h'' e) : KeepsFront h h'' e := by
  intro data'' hdata''
  obtain ⟨data', hdata', hstart'⟩ := h₂ data'' hdata''
  obtain ⟨data, hdata, hstart⟩ := h₁ data' hdata'
  exact ⟨data, hdata, hstart.trans hstart'⟩

theorem setBlock (hdata : h.block d = some data) {x : Option BufferData}
    (hstart : ∀ data', x = some data' → data.dirtyStart = data'.dirtyStart) (e : ℕ) :
    KeepsFront h (h.setBlock d x) e := by
  intro data' hdata'
  by_cases hed : e = d
  · rw [hed, block_setBlock_self hdata] at hdata'
    exact ⟨data, hed ▸ hdata, hstart data' hdata'⟩
  · exact ⟨data', (block_setBlock_ne hed x).symm.trans hdata', rfl⟩

theorem deallocate (hfree : h.deallocate d = some h') (e : ℕ) : KeepsFront h h' e := by
  obtain ⟨data, hdata, hfree⟩ := Option.bind_eq_some_iff.mp hfree
  split_ifs at hfree
  obtain rfl := Option.some.inj hfree
  exact setBlock hdata (fun _ hnone => by cases hnone) e

theorem release (hrelease : h.release d = some h') (e : ℕ) : KeepsFront h h' e := by
  obtain ⟨data, hdata, hrelease⟩ := Option.bind_eq_some_iff.mp hrelease
  have hcounted : KeepsFront h
      (h.setBlock d (some { data with count := data.count - 1 })) e :=
    setBlock hdata (fun _ hsome => by rw [← Option.some.inj hsome]) e
  refine hcounted.trans ?_
  dsimp only at hrelease
  split_ifs at hrelease
  · obtain ⟨data', _, hrecycle⟩ := Option.bind_eq_some_iff.mp hrelease
    dsimp only at hrecycle
    split_ifs at hrecycle
    · exact deallocate (h := { h.setBlock d _ with maxSize := _ }) hrecycle e
    · exact Option.some.inj hrecycle ▸ of_eq rfl
  · exact Option.some.inj hrelease ▸ of_eq rfl

theorem addCount (hadd : h.addCount d = some h') (e : ℕ) : KeepsFront h h' e := by
  obtain ⟨data, hdata, rfl⟩ := Option.map_eq_some_iff.mp hadd
  exact setBlock hdata (fun _ hsome => by rw [← Option.some.inj hsome]) e

theorem setDirty {first last : ℕ} (hset : h.setDirty d first last = some h') (hed : e ≠ d) :
    KeepsFront h h' e := by
  obtain ⟨data, _, rfl⟩ := Option.map_eq_some_iff.mp hset
  exact of_eq (block_setBlock_ne hed _)

theorem write {a : ℕ} (hwrite : h.write d a new = some h') (e : ℕ) : KeepsFront h h' e := by
  obtain ⟨data, hdata, hwrite⟩ := Option.bind_eq_some_iff.mp hwrite
  obtain ⟨bytes, _, hwrite⟩ := Option.bind_eq_some_iff.mp hwrite
  obtain rfl := Option.some.inj hwrite
  exact setBlock hdata (fun _ hsome => by rw [← Option.some.inj hsome]) e

theorem memcpy {a m k : ℕ} (hcopy : h.memcpy d a k m n = some h') (e : ℕ) :
    KeepsFront h h' e := by
  obtain ⟨_, _, hwrite⟩ := Option.bind_eq_some_iff.mp hcopy
  exact write hwrite e

end KeepsFront

/-- Sound, and no buffer begins before the dirty area of its block. -/
structure Isolated (h : BufferHeap) (bs : List Buffer) : Prop extends Sound h bs where
  clear : ∀ b ∈ bs, ∀ data, h.block b.data = some data → data.dirtyStart ≤ b.mStart

namespace Isolated

theorem perm {cs : List Buffer} (hi : Isolated h bs) (hperm : bs.Perm cs) : Isolated h cs :=
  ⟨hi.toSound.perm hperm, fun b hb => hi.clear b (hperm.mem_iff.mpr hb)⟩

theorem tail (hi : Isolated h (b :: rest)) : Isolated h rest :=
  ⟨hi.toSound.tail, fun c hc => hi.clear c (List.mem_cons_of_mem b hc)⟩

theorem transfer (hi : Isolated h bs) (hs : Sound h' bs)
    (hfront : ∀ c ∈ bs, KeepsFront h h' c.data) : Isolated h' bs := by
  refine ⟨hs, fun c hc data' hdata' => ?_⟩
  obtain ⟨data, hdata, hstart⟩ := hfront c hc data' hdata'
  exact hstart ▸ hi.clear c hc data hdata

/-- A buffer that is new or changed, with the others. -/
theorem cons (hi : Isolated h rest) (hs : Sound h' (b' :: rest))
    (hfront : ∀ c ∈ rest, KeepsFront h h' c.data)
    (hb : ∀ data, h'.block b'.data = some data → data.dirtyStart ≤ b'.mStart) :
    Isolated h' (b' :: rest) := by
  refine ⟨hs, fun c hc => ?_⟩
  cases List.mem_cons.mp hc with
  | inl heq => exact heq ▸ hb
  | inr hmem => exact (hi.transfer hs.tail hfront).clear c hmem

theorem later (hi : Isolated h bs) (ho : o ∈ bs) (hfront : KeepsFront h h' o.data)
    (hdata : b'.data = o.data) (hle : o.mStart ≤ b'.mStart) :
    ∀ data, h'.block b'.data = some data → data.dirtyStart ≤ b'.mStart := by
  intro data' hdata'
  obtain ⟨data, hblock, hstart⟩ := hfront data' (hdata ▸ hdata')
  exact hstart ▸ (hi.clear o ho data hblock).trans hle

theorem copy (hi : Isolated h bs) (ho : o ∈ bs) (hcopy : h.copy o = some (h', b')) :
    Isolated h' (b' :: bs) := by
  have hs := (hi.toSound.copy ho hcopy).1
  obtain ⟨h₁, hadd, hcopy⟩ := Option.bind_eq_some_iff.mp hcopy
  obtain ⟨rfl, rfl⟩ := Prod.mk.inj (Option.some.inj hcopy)
  have hfront := KeepsFront.addCount hadd
  exact hi.cons hs (fun c _ => hfront c.data) (hi.later ho (hfront _) rfl (le_refl _))

theorem assign (hi : Isolated h (b :: rest)) (ho : o ∈ b :: rest)
    (hassign : h.assign b o = some (h', b')) : Isolated h' (b' :: rest) := by
  have hs := hi.toSound.assign ho hassign
  have hfront : b' = o ∧ ∀ e, KeepsFront h h' e := by
    unfold BufferHeap.assign at hassign
    by_cases hsame : b.data = o.data
    · rw [if_pos hsame] at hassign
      obtain ⟨rfl, rfl⟩ := Prod.mk.inj (Option.some.inj hassign)
      exact ⟨rfl, fun _ => KeepsFront.of_eq rfl⟩
    · rw [if_neg hsame] at hassign
      obtain ⟨h₂, hmove, hassign⟩ := Option.bind_eq_some_iff.mp hassign
      obtain ⟨h₁, hrelease, hadd⟩ := Option.bind_eq_some_iff.mp hmove
      obtain ⟨rfl, rfl⟩ := Prod.mk.inj (Option.some.inj hassign)
      exact ⟨rfl, fun e => (KeepsFront.release hrelease e).trans
        ((KeepsFront.addCount hadd e).trans (KeepsFront.of_eq rfl))⟩
  obtain ⟨rfl, hfront⟩ := hfront
  exact hi.tail.cons hs (fun c _ => hfront c.data) (hi.later ho (hfront _) rfl (le_refl _))

theorem destroy (hi : Isolated h (b :: rest)) (hdestroy : h.destroy b = some h') :
    Isolated h' rest := by
  refine hi.tail.transfer (hi.toSound.destroy hdestroy) fun c _ => ?_
  have hraised : KeepsFront h (h.recommend b.maxZeroAreaStart) c.data := KeepsFront.of_eq rfl
  exact hraised.trans (KeepsFront.release hdestroy c.data)

theorem shrink (hi : Isolated h (b :: rest)) (hb : b.Shrinks b') (hstart : b.mStart ≤ b'.mStart) :
    Isolated h (b' :: rest) :=
  hi.tail.cons (hi.toSound.shrink hb) (fun _ _ => KeepsFront.of_eq rfl)
    (hi.later List.mem_cons_self (KeepsFront.of_eq rfl) hb.data hstart)

theorem removeAtStart (hi : Isolated h (b :: rest)) (start : ℕ) :
    Isolated h (b.removeAtStart start :: rest) := by
  have hb := hi.shaped b List.mem_cons_self
  exact hi.shrink (removeAtStart_shrinks hb start) (removeAtStart_later hb start)

theorem removeAtEnd (hi : Isolated h (b :: rest)) (stop : ℕ) :
    Isolated h (b.removeAtEnd stop :: rest) :=
  hi.shrink (removeAtEnd_shrinks (hi.shaped b List.mem_cons_self) stop)
    (removeAtEnd_start stop).ge

theorem create (hi : Isolated h bs) (hcreate : h.create n = some (h', d)) :
    (∀ c ∈ bs, c.data ≠ d) ∧ ∀ c ∈ bs, KeepsFront h h' c.data := by
  obtain ⟨h₁, d₁, hsome, hcreated⟩ := create_spec hi.toSound n
  rw [hcreate] at hsome
  obtain ⟨rfl, rfl⟩ := Prod.mk.inj (Option.some.inj hsome)
  obtain ⟨data, hdata, hcount, _⟩ := hcreated.block
  exact ⟨fun c hc => hcreated.sound.alone hdata hcount hc,
    fun c hc => KeepsFront.of_eq (hcreated.kept c hc)⟩

theorem block_setDirty {first last : ℕ} (hset : h.setDirty d first last = some h') :
    ∀ data, h'.block d = some data → data.dirtyStart = first := by
  obtain ⟨data, hdata, rfl⟩ := Option.map_eq_some_iff.mp hset
  intro data' hdata'
  rw [block_setBlock_self hdata] at hdata'
  rw [← Option.some.inj hdata']

theorem initializeWith (hi : Isolated h rest) (hinit : h.initializeWith n = some (h', b')) :
    Isolated h' (b' :: rest) := by
  have hs : Sound h' (b' :: rest) := by
    obtain ⟨h₁, b₁, hsome, hs, _⟩ := initializeWith_spec hi.toSound n
    rw [hinit] at hsome
    obtain ⟨rfl, rfl⟩ := Prod.mk.inj (Option.some.inj hsome)
    exact hs
  obtain ⟨⟨h₁, d⟩, hcreate, hinit⟩ := Option.bind_eq_some_iff.mp hinit
  obtain ⟨data, _, hinit⟩ := Option.bind_eq_some_iff.mp hinit
  obtain ⟨h₂, hset, hinit⟩ := Option.bind_eq_some_iff.mp hinit
  obtain ⟨rfl, rfl⟩ := Prod.mk.inj (Option.some.inj hinit)
  obtain ⟨hapart, hfront⟩ := hi.create hcreate
  exact hi.cons hs (fun c hc => (hfront c hc).trans (KeepsFront.setDirty hset (hapart c hc)))
    fun data hdata => (block_setDirty hset data hdata).le

/-- A buffer whose bytes were copied to a new block. -/
theorem moved {h₁ h₂ h₃ : BufferHeap} {a m k first last : ℕ} (hi : Isolated h rest)
    (hs : Sound h' (b' :: rest)) (hcreate : h.create n = some (h₁, d))
    (hcopy : h₁.memcpy d a e m k = some h₂) (hrelease : h₂.release e = some h₃)
    (hset : h₃.setDirty d first last = some h') (hdata : b'.data = d) (hle : first ≤ b'.mStart) :
    Isolated h' (b' :: rest) := by
  obtain ⟨hapart, hfront⟩ := hi.create hcreate
  refine hi.cons hs (fun c hc => ?_) fun data' hdata' => ?_
  · exact (hfront c hc).trans ((KeepsFront.memcpy hcopy _).trans
      ((KeepsFront.release hrelease _).trans (KeepsFront.setDirty hset (hapart c hc))))
  · exact (block_setDirty hset data' (hdata ▸ hdata')).le.trans hle

/-- What is before the start of a buffer that has grown there belongs to no other. -/
theorem addAtStart (hi : Isolated h (b :: rest)) (hadd : h.addAtStart b n = some (h', b')) :
    Isolated h' (b' :: rest) ∧ ∀ c ∈ rest, c.data = b'.data → b'.mStart + n ≤ c.mStart := by
  have hs := hi.toSound.addAtStart hadd
  obtain ⟨data, hdata, hadd⟩ := Option.bind_eq_some_iff.mp hadd
  dsimp only at hadd
  split_ifs at hadd with hplace hassert
  · obtain ⟨h₁, hset, hadd⟩ := Option.bind_eq_some_iff.mp hadd
    obtain ⟨rfl, rfl⟩ := Prod.mk.inj (Option.some.inj hadd)
    have hfirst : ∀ c ∈ rest, c.data = b.data → b.mStart ≤ c.mStart := by
      intro c hc hcb
      have hcount : data.count ≠ 1 := fun hone => hi.toSound.alone hdata hone hc hcb
      have hclear := hi.clear c (List.mem_cons_of_mem b hc) data (hcb ▸ hdata)
      have hstart := hassert.resolve_left hcount
      omega
    refine ⟨⟨hs, fun c hc data' hdata' => ?_⟩, fun c hc hcb => ?_⟩
    · cases List.mem_cons.mp hc with
      | inl heq =>
        rw [heq] at hdata' ⊢
        exact (block_setDirty hset data' hdata').le
      | inr hmem =>
        by_cases hcb : c.data = b.data
        · have hfirst := hfirst c hmem hcb
          have hstart := block_setDirty hset data' (hcb ▸ hdata')
          omega
        · obtain ⟨x, hx, hstart⟩ := KeepsFront.setDirty hset hcb data' hdata'
          exact hstart ▸ hi.clear c (List.mem_cons_of_mem b hmem) x hx
    · have hfirst := hfirst c hc hcb
      show b.mStart - n + n ≤ c.mStart
      omega
  · obtain ⟨⟨h₁, d⟩, hcreate, hadd⟩ := Option.bind_eq_some_iff.mp hadd
    obtain ⟨h₂, hcopy, hadd⟩ := Option.bind_eq_some_iff.mp hadd
    obtain ⟨h₃, hrelease, hadd⟩ := Option.bind_eq_some_iff.mp hadd
    obtain ⟨h₄, hset, hadd⟩ := Option.bind_eq_some_iff.mp hadd
    obtain ⟨rfl, rfl⟩ := Prod.mk.inj (Option.some.inj hadd)
    obtain ⟨hother, _⟩ := hi.tail.create hcreate
    exact ⟨hi.tail.moved hs hcreate hcopy hrelease hset rfl (le_refl _),
      fun c hc hcb => absurd hcb (hother c hc)⟩

theorem addAtEnd (hi : Isolated h (b :: rest)) (hadd : h.addAtEnd b n = some (h', b')) :
    Isolated h' (b' :: rest) := by
  have hs := hi.toSound.addAtEnd hadd
  obtain ⟨data, hdata, hadd⟩ := Option.bind_eq_some_iff.mp hadd
  dsimp only at hadd
  split_ifs at hadd
  · obtain ⟨h₁, hset, hadd⟩ := Option.bind_eq_some_iff.mp hadd
    obtain ⟨rfl, rfl⟩ := Prod.mk.inj (Option.some.inj hadd)
    have hfront : ∀ e, KeepsFront h h₁ e := by
      obtain ⟨x, hx, rfl⟩ := Option.map_eq_some_iff.mp hset
      rw [hdata] at hx
      obtain rfl := Option.some.inj hx
      exact KeepsFront.setBlock hdata fun _ hsome => by rw [← Option.some.inj hsome]
    exact hi.tail.cons hs (fun c _ => hfront c.data)
      (hi.later List.mem_cons_self (hfront _) rfl (le_refl _))
  · obtain ⟨⟨h₁, d⟩, hcreate, hadd⟩ := Option.bind_eq_some_iff.mp hadd
    obtain ⟨h₂, hcopy, hadd⟩ := Option.bind_eq_some_iff.mp hadd
    obtain ⟨h₃, hrelease, hadd⟩ := Option.bind_eq_some_iff.mp hadd
    obtain ⟨h₄, hset, hadd⟩ := Option.bind_eq_some_iff.mp hadd
    obtain ⟨rfl, rfl⟩ := Prod.mk.inj (Option.some.inj hadd)
    exact hi.tail.moved hs hcreate hcopy hrelease hset rfl (le_refl _)

theorem write {a : ℕ} (hi : Isolated h bs) (hwrite : h.write d a new = some h') : Isolated h' bs :=
  hi.transfer (hi.toSound.written hwrite) fun c _ => KeepsFront.write hwrite c.data

theorem writeArray {it : BufferIterator} (hi : Isolated h bs)
    (hwrite : h.writeArray it new = some h') : Isolated h' bs := by
  unfold BufferHeap.writeArray at hwrite
  split_ifs at hwrite
  exact hi.write hwrite

end Isolated
end BufferHeap
end NetGymSim.Network

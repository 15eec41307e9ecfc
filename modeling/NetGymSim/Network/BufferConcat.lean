import NetGymSim.Network.BufferCopies

/-!
# Concatenation of buffers

`AddAtEnd` for a buffer either lets two zero areas meet or copies the other buffer behind a real
copy of this one. On the first path the bytes behind the other's zero area are written as many
places too far as the zero area is long, and on the second one they cannot be written when both
buffers are still on one block.
-/

namespace NetGymSim.Network
open NetGymSim.Lib

namespace BufferHeap
open Buffer
variable {h h' : BufferHeap} {b b' o tmp c : Buffer} {rest bs : List Buffer}
  {data : BufferData} {d n p : ℕ}

theorem release_shared (hdata : h.block d = some data) (hcount : 2 ≤ data.count) :
    h.release d = some (h.setBlock d (some { data with count := data.count - 1 })) := by
  rw [release, hdata]
  exact if_neg (by omega)

theorem addCount_destroy (tmp : Buffer) (hdata : h.block tmp.data = some data)
    (hpos : 0 < data.count) (m : ℕ) :
    ∃ h₁ h', h.addCount tmp.data = some h₁ ∧ (h₁.recommend m).destroy tmp = some h' ∧
      (∀ e, h'.block e = h.block e) ∧ h'.freeList = h.freeList := by
  have hself := block_setBlock_self hdata (some { data with count := data.count + 1 })
  have hcounted : (((h.setBlock tmp.data (some { data with count := data.count + 1 })).recommend
      m).recommend tmp.maxZeroAreaStart).block tmp.data =
        some { data with count := data.count + 1 } := hself
  have hrelease := release_shared hcounted (Nat.succ_le_succ hpos)
  refine ⟨_, _, update_eq hdata _, hrelease, fun e => ?_, rfl⟩
  by_cases he : e = tmp.data
  · rw [he, hdata]
    exact (block_setBlock_self hcounted _).trans rfl
  · rw [block_setBlock_ne he]
    exact block_setBlock_ne he _

theorem transform_stays (hs : Sound h (b :: rest)) (hzeros : ¬b.zeroAreaEnd - b.zeroAreaStart ≠ 0) :
    ∃ h', h.transformIntoRealBuffer b = some (h', { b with maxZeroAreaStart := b.zeroAreaStart }) ∧
      (∀ e, h'.block e = h.block e) ∧ h'.freeList = h.freeList := by
  obtain ⟨data, hdata, _⟩ := hs.held b List.mem_cons_self
  obtain ⟨h₁, h', hadd, hdestroy, hblock, hfree⟩ := addCount_destroy
    { b with maxZeroAreaStart := b.zeroAreaStart } hdata
    (hs.count_pos List.mem_cons_self hdata) b.maxZeroAreaStart
  refine ⟨h', ?_, hblock, hfree⟩
  unfold transformIntoRealBuffer createFullCopy
  dsimp only
  rw [if_neg hzeros, copy, hadd]
  dsimp only [Option.bind_eq_bind, Option.bind_some]
  rw [assign, if_pos rfl]
  dsimp only [Option.bind_eq_bind, Option.bind_some]
  rw [hdestroy, Option.bind_some]

theorem transform_moves (hs : Sound h (b :: rest)) (hzeros : b.zeroAreaEnd - b.zeroAreaStart ≠ 0) :
    ∃ h' b', h.transformIntoRealBuffer b = some (h', b') ∧ Flat h h' rest b' (h.content b) := by
  obtain ⟨h₁, tmp, hcopy, hflat⟩ := createFullCopy_flat hs List.mem_cons_self hzeros
  obtain ⟨data, hdata, hcount⟩ := hflat.one
  have hne : b.data ≠ tmp.data := hflat.alone List.mem_cons_self
  obtain ⟨h₂, hrelease, hreleased⟩ := release_spec (hflat.sound.perm (List.Perm.swap b tmp rest))
  have hdata₂ : h₂.block tmp.data = some data := (hreleased.other _ hne.symm).trans hdata
  obtain ⟨h₃, h', hadd, hdestroy, hblock, hfree⟩ := addCount_destroy tmp hdata₂ (by omega)
    b.maxZeroAreaStart
  have hbytes : ∀ c ∈ tmp :: rest, h'.used c = h₁.used c := fun c hc =>
    used_congr (by rw [← hreleased.bytes c hc, bytes, hblock]; rfl)
  refine ⟨h', tmp, ?_, hreleased.sound.congr hblock hfree, ⟨data, ?_, hcount⟩, hflat.flat,
    ?_, fun c hc => ?_⟩
  · unfold transformIntoRealBuffer
    rw [hcopy]
    dsimp only [Option.bind_eq_bind, Option.bind_some]
    rw [assign, if_neg hne, hrelease, Option.bind_some, hadd]
    dsimp only [Option.bind_eq_bind, Option.bind_some]
    rw [hdestroy, Option.bind_some]
  · rw [hblock, hdata₂]
  · rw [hbytes tmp List.mem_cons_self, hflat.used]
  · rw [hbytes c (List.mem_cons_of_mem tmp hc), hflat.kept c (List.mem_cons_of_mem b hc)]

theorem memcpy_of_read {a e m : ℕ} {new : List UInt8} (hread : h.read e m n = some new) :
    h.memcpy d a e m n = h.write d a new := by
  rw [memcpy, hread]
  rfl

theorem setBlock_setBlock (x y : Option BufferData) :
    (h.setBlock d x).setBlock d y = h.setBlock d y := by
  rw [setBlock, setBlock, setBlock, List.set_set]

theorem writeRange_guard (hshaped : o.Shaped) {it : BufferIterator} (start : BufferIterator)
    (hstart : start = o.iter p) (hp : p ≤ o.getSize) (hne : it.data ≠ o.data)
    (hcheck : it.CheckNoZero it.current (it.current + (o.getSize - p))) :
    start.data = o.last.data ∧ start.current ≤ o.last.current ∧
      start.zeroStart = o.last.zeroStart ∧ start.zeroEnd = o.last.zeroEnd ∧
      it.data ≠ start.data ∧
      it.CheckNoZero it.current (it.current + (o.last.current - start.current)) := by
  have hend := (hshaped.start.trans hshaped.zeros).trans hshaped.stop
  have hsize : o.last.current - (o.iter p).current = o.getSize - p := by
    show o.mEnd - (o.mStart + p) = o.mEnd - o.mStart - p
    omega
  rw [hstart, hsize]
  refine ⟨rfl, ?_, rfl, rfl, hne, hcheck⟩
  show o.mStart + p ≤ o.mEnd
  unfold getSize at hp
  omega

theorem writeRange_first (hshaped : o.Shaped) {it : BufferIterator} (hne : it.data ≠ o.data)
    (hcheck : it.CheckNoZero it.current (it.current + o.getSize)) :
    h.writeRange it o.first o.last = (do
      let h ← h.memcpy it.data it.current o.data o.mStart (o.zeroAreaStart - o.mStart)
      let h ← h.write it.data (it.current + (o.zeroAreaStart - o.mStart))
        (List.replicate (o.zeroAreaEnd - o.zeroAreaStart) 0)
      h.memcpy it.data (it.current + (o.zeroAreaStart - o.mStart) +
        (o.zeroAreaEnd - o.zeroAreaStart)) o.data o.zeroAreaStart (o.mEnd - o.zeroAreaEnd)) := by
  have ⟨hstart, hzeros, hstop⟩ := hshaped
  have hguard := writeRange_guard (p := 0) hshaped o.first rfl (Nat.zero_le _) hne hcheck
  have hsize : o.last.current - o.first.current = o.getSize := rfl
  have hbefore : min o.getSize (o.first.zeroStart - o.first.current) =
      o.zeroAreaStart - o.mStart := by
    show min (o.mEnd - o.mStart) (o.zeroAreaStart - o.mStart) = _
    omega
  have hcurrent : o.first.current + (o.zeroAreaStart - o.mStart) = o.zeroAreaStart := by
    show o.mStart + _ = _
    omega
  have hinside : min (o.getSize - (o.zeroAreaStart - o.mStart))
      (o.first.zeroEnd - o.zeroAreaStart) = o.zeroAreaEnd - o.zeroAreaStart := by
    show min (o.mEnd - o.mStart - _) (o.zeroAreaEnd - _) = _
    omega
  have hbehind : min (o.getSize - (o.zeroAreaStart - o.mStart) - (o.zeroAreaEnd - o.zeroAreaStart))
      (o.first.dataEnd - (o.zeroAreaStart + (o.zeroAreaEnd - o.zeroAreaStart))) =
      o.mEnd - o.zeroAreaEnd := by
    show min (o.mEnd - o.mStart - _ - _) (o.mEnd - _) = _
    omega
  have hfrom : o.zeroAreaStart + (o.zeroAreaEnd - o.zeroAreaStart) -
      (o.first.zeroEnd - o.first.zeroStart) = o.zeroAreaStart := Nat.add_sub_cancel _ _
  unfold writeRange
  dsimp only
  rw [if_pos hguard, hsize, if_pos (show o.first.current ≤ o.first.zeroStart from hstart), hbefore,
    hcurrent, if_pos (show o.zeroAreaStart ≤ o.first.zeroEnd from hzeros), hinside, hbehind, hfrom]
  rfl

theorem write_append (hdata : h.block d = some data) {a : ℕ} {x y : List UInt8}
    (hroom : a + (x ++ y).length ≤ data.bytes.length) :
    ∃ h₁, h.write d a x = some h₁ ∧ h₁.write d (a + x.length) y = h.write d a (x ++ y) ∧
      ∀ e, e ≠ d → h₁.block e = h.block e := by
  have hx : a + x.length ≤ data.bytes.length := by
    rw [List.length_append] at hroom
    omega
  have hself := block_setBlock_self hdata (some { data with bytes := splice data.bytes a x })
  refine ⟨_, write_eq hdata hx, ?_, fun e he => block_setBlock_ne he _⟩
  rw [write_eq hself, write_eq hdata hroom, setBlock_setBlock, splice_splice hroom]
  rw [splice_length hx, Nat.add_assoc, ← List.length_append]
  exact hroom

theorem writeRange_all (hs : Sound h bs) (ho : o ∈ bs) (it : BufferIterator)
    (hne : it.data ≠ o.data) (hdata : h.block it.data = some data)
    (hroom : it.current + o.getSize ≤ data.bytes.length)
    (hcheck : it.CheckNoZero it.current (it.current + o.getSize)) :
    h.writeRange it o.first o.last = some (h.setBlock it.data
      (some { data with bytes := splice data.bytes it.current (h.content o) })) := by
  have hshaped := hs.shaped o ho
  have hlength := hs.content_length ho
  have hused := hs.used_length ho
  have hbefore : ((h.used o).take (o.zeroAreaStart - o.mStart)).length =
      o.zeroAreaStart - o.mStart := List.length_take_of_le (hused ▸ Nat.le_add_right _ _)
  have hbehind : ((h.used o).drop (o.zeroAreaStart - o.mStart)).length =
      o.mEnd - o.zeroAreaEnd := by
    rw [List.length_drop, hused, getInternalSize, Nat.add_sub_cancel_left]
  have hread₁ := hs.read_before ho (le_refl (o.zeroAreaStart - o.mStart))
  have hread₃ := hs.read_behind ho (le_refl (o.mEnd - o.zeroAreaEnd))
  rw [List.take_of_length_le hbehind.le] at hread₃
  have hroom₃ : it.current + (h.content o).length ≤ data.bytes.length := hlength ▸ hroom
  have hroom₂ : it.current + ((h.used o).take (o.zeroAreaStart - o.mStart) ++
      List.replicate (o.zeroAreaEnd - o.zeroAreaStart) (0 : UInt8)).length ≤
      data.bytes.length := by
    rw [content, withZeros, List.length_append] at hroom₃
    omega
  obtain ⟨h₁, hwrite₁, happend₁, _⟩ := write_append hdata hroom₂
  obtain ⟨h₂, hwrite₂, happend₂, hother⟩ := write_append hdata hroom₃
  have hread : h₂.read o.data o.zeroAreaStart (o.mEnd - o.zeroAreaEnd) =
      some ((h.used o).drop (o.zeroAreaStart - o.mStart)) := by
    rw [← hread₃, read, hother o.data hne.symm]
    rfl
  rw [hbefore] at happend₁
  rw [List.length_append, hbefore, List.length_replicate, ← Nat.add_assoc] at happend₂
  rw [writeRange_first hshaped hne hcheck, memcpy_of_read hread₁, hwrite₁]
  dsimp only [Option.bind_eq_bind, Option.bind_some]
  rw [happend₁, hwrite₂, Option.bind_some, memcpy_of_read hread, happend₂]
  exact write_eq hdata hroom₃

theorem used_write (hdata : h.block d = some data) {new : List UInt8}
    (hroom : p + new.length ≤ data.bytes.length) (hshaped : c.Shaped)
    (hc : c.data = d → c.getInternalEnd ≤ p) :
    (h.setBlock d (some { data with bytes := splice data.bytes p new })).used c = h.used c := by
  by_cases hcd : c.data = d
  · have hend := hshaped.internalEnd
    have hp := hc hcd
    rw [used, used, hcd, bytes_eq (block_setBlock_self hdata _), bytes_eq hdata]
    exact stretch_splice_outside hroom (.inl (by omega))
  · exact used_congr (bytes_setBlock_ne hcd _)

def extendWith (h : BufferHeap) (b o : Buffer) : Option (BufferHeap × Buffer) := do
  let (h, b) ← h.addAtEnd b o.getSize
  let destStart ← b.last.prev o.getSize
  let h ← h.writeRange destStart o.first o.last
  some (h, b)

theorem append_of_not_merges (hdata : h.block b.data = some data) (hmerge : ¬Merges data b o) :
    h.append b o = (h.transformIntoRealBuffer b).bind fun r => r.1.extendWith r.2 o := by
  rw [append, hdata, Option.bind_eq_bind, Option.bind_some, if_neg hmerge]
  rfl

theorem extendWith_fails (hs : Sound h (b :: rest)) (hdata : h.block b.data = some data)
    (hsame : b.data = o.data) (hplace : InPlace data b o.getSize) : h.extendWith b o = none := by
  obtain ⟨h₁, b₁, hadd, hx⟩ := addAtEnd_spec hs hdata o.getSize
  have hshaped := hx.sound.shaped b₁ List.mem_cons_self
  have hsize := getSize_eq hshaped
  have hbehind := hx.behind
  rw [getInternalSize, hbehind] at hsize
  have hfail : h₁.writeRange (b₁.iter (b₁.getSize - o.getSize)) o.first o.last = none := by
    unfold writeRange
    dsimp only
    rw [if_neg]
    rintro ⟨_, _, _, _, hne, _⟩
    exact hne ((hx.inPlace hplace).trans hsame)
  rw [extendWith, hadd]
  dsimp only [Option.bind_eq_bind, Option.bind_some]
  rw [last_prev hshaped (by omega), Option.bind_some, hfail, Option.bind_none]

theorem extendWith_spec (hs : Sound h (b :: rest)) (hdata : h.block b.data = some data)
    (hflat : b.zeroAreaStart = b.zeroAreaEnd) (ho : o ∈ rest)
    (hfree : ¬(b.data = o.data ∧ InPlace data b o.getSize)) :
    ∃ h' b', h.extendWith b o = some (h', b') ∧ Sound h' (b' :: rest) ∧
      h'.content b' = h.used b ++ h.content o ∧ ∀ c ∈ rest, h'.used c = h.used c := by
  obtain ⟨h₁, b₁, hadd, hx⟩ := addAtEnd_spec hs hdata o.getSize
  have hshaped := hx.sound.shaped b₁ List.mem_cons_self
  have hzeros := hx.zeros
  have hle := hshaped.zeros
  have hflat₁ : b₁.zeroAreaStart = b₁.zeroAreaEnd := by omega
  have hinternal : b₁.getInternalSize = b.getInternalSize + o.getSize := by
    simp only [getInternalSize, hx.before, hx.behind]
    omega
  have hsize : b₁.getSize = b.getInternalSize + o.getSize := by
    rw [getSize_eq hshaped, hinternal, hflat₁, Nat.sub_self, Nat.add_zero]
  have hend := hshaped.internalEnd
  have hstop : b₁.getInternalEnd = b₁.mEnd := by
    rw [getInternalEnd, hflat₁, Nat.sub_self]
    rfl
  obtain ⟨data₁, hdata₁, hroom₁, _⟩ := hx.sound.held b₁ List.mem_cons_self
  have hne : b₁.data ≠ o.data := by
    by_cases hplace : InPlace data b o.getSize
    · rw [hx.inPlace hplace]
      exact fun hsame => hfree ⟨hsame, hplace⟩
    · exact (hx.moved hplace o ho).symm
  have hcontent : h₁.content o = h.content o := content_congr (used_congr (hx.kept o ho))
  have hlength := hx.sound.content_length (List.mem_cons_of_mem b₁ ho)
  have hroom : b₁.mStart + b.getInternalSize + (h₁.content o).length ≤ data₁.bytes.length := by
    omega
  have hwrite := writeRange_all hx.sound (List.mem_cons_of_mem b₁ ho)
    (b₁.iter b.getInternalSize) hne hdata₁ (hlength ▸ hroom)
    (checkNoZero_flat hflat₁ _ _ (by
      show b₁.mStart + b.getInternalSize + o.getSize ≤ b₁.mEnd
      omega))
  refine ⟨_, b₁, ?_, hx.sound.write hdata₁ (splice_length hroom), ?_, fun c hc => ?_⟩
  · rw [extendWith, hadd]
    dsimp only [Option.bind_eq_bind, Option.bind_some]
    rw [last_prev hshaped (by omega), hsize, Nat.add_sub_cancel, Option.bind_some, hwrite,
      Option.bind_some]
    rfl
  · have hself := block_setBlock_self hdata₁ (some { data₁ with
      bytes := splice data₁.bytes (b₁.mStart + b.getInternalSize) (h₁.content o) })
    have hused := hx.used
    have hwritten := stretch_splice_self hroom
    rw [bytes_eq hdata₁] at hused
    rw [hlength] at hwritten
    rw [content, withZeros_flat hflat₁, used, bytes_eq hself, hinternal, stretch_add,
      stretch_splice_outside hroom (.inl (le_refl _)), hused, hwritten, hcontent]
  · have halone := hx.alone c hc
    rw [used_write (d := b₁.data) hdata₁ hroom
      (hx.sound.shaped c (List.mem_cons_of_mem b₁ hc)) fun hcb => by
        have hcb := halone hcb
        omega]
    exact used_congr (hx.kept c hc)

def Collides (data : BufferData) (b o : Buffer) : Prop :=
  b.data = o.data ∧ b.zeroAreaStart = b.zeroAreaEnd ∧ InPlace data b o.getSize

theorem append_copies (hs : Sound h (b :: rest)) (hdata : h.block b.data = some data)
    (ho : o ∈ rest) (hmerge : ¬Merges data b o) :
    (Collides data b o ∧ h.append b o = none) ∨
      ¬Collides data b o ∧ ∃ h' b', h.append b o = some (h', b') ∧ Sound h' (b' :: rest) ∧
        h'.content b' = h.content b ++ h.content o ∧ ∀ c ∈ rest, h'.used c = h.used c := by
  rw [append_of_not_merges hdata hmerge]
  by_cases hzeros : b.zeroAreaEnd - b.zeroAreaStart ≠ 0
  · refine .inr ⟨fun hcollides => hzeros (by rw [hcollides.2.1, Nat.sub_self]), ?_⟩
    obtain ⟨h₁, b₁, htransform, hflat⟩ := transform_moves hs hzeros
    obtain ⟨data₁, hdata₁, _⟩ := hflat.one
    obtain ⟨h₂, b₂, hextend, hsound, hcontent, hkept⟩ := extendWith_spec hflat.sound hdata₁
      hflat.flat ho fun hsame => hflat.alone ho hsame.1.symm
    refine ⟨h₂, b₂, ?_, hsound, ?_, fun c hc => (hkept c hc).trans (hflat.kept c hc)⟩
    · rw [htransform, Option.bind_some, hextend]
    · rw [hcontent, hflat.used, content_congr (hflat.kept o ho)]
  · obtain ⟨h₁, htransform, hblock, hfree⟩ := transform_stays hs hzeros
    have hshaped := hs.shaped b List.mem_cons_self
    have hle := hshaped.zeros
    have hflat : b.zeroAreaStart = b.zeroAreaEnd := by omega
    have hsound₁ : Sound h₁ ({ b with maxZeroAreaStart := b.zeroAreaStart } :: rest) :=
      (hs.refit_max b.zeroAreaStart).congr hblock hfree
    have hdata₁ : h₁.block b.data = some data := (hblock _).trans hdata
    have hused : ∀ c, h₁.used c = h.used c := fun c => used_congr (by rw [bytes, hblock]; rfl)
    rw [htransform, Option.bind_some]
    by_cases hcollides : b.data = o.data ∧ InPlace data b o.getSize
    · refine .inl ⟨⟨hcollides.1, hflat, hcollides.2⟩, ?_⟩
      exact extendWith_fails hsound₁ hdata₁ hcollides.1 hcollides.2
    · refine .inr ⟨fun hc => hcollides ⟨hc.1, hc.2.2⟩, ?_⟩
      obtain ⟨h₂, b₂, hextend, hsound, hcontent, hkept⟩ :=
        extendWith_spec hsound₁ hdata₁ hflat ho hcollides
      refine ⟨h₂, b₂, hextend, hsound, ?_, fun c hc => (hkept c hc).trans (hused c)⟩
      have hflat_content : h.content b = h.used b := withZeros_flat hflat _
      rw [hcontent, content_congr (hused o), hflat_content]
      exact congrArg (· ++ h.content o) (hused _)

def zerosOf (b o : Buffer) : ℕ := (mergeZeros b o).zeroAreaEnd - (mergeZeros b o).zeroAreaStart

def behind (h : BufferHeap) (o : Buffer) : List UInt8 :=
  (h.used o).drop (o.zeroAreaStart - o.mStart)

theorem mergeZeros_shaped (hb : b.Shaped) : (mergeZeros b o).Shaped := by
  obtain ⟨hstart, hzeros, hstop⟩ := hb
  refine ⟨?_, ?_, le_refl _⟩ <;> simp only [mergeZeros] <;> split_ifs <;> omega

theorem mergeZeros_internal (hb : b.Shaped) (hmerge : Merges data b o) :
    (mergeZeros b o).getInternalSize = b.getInternalSize ∧
      (mergeZeros b o).getInternalEnd = b.getInternalEnd := by
  obtain ⟨hstart, hzeros, hstop⟩ := hb
  obtain ⟨_, hend, _⟩ := hmerge
  simp only [mergeZeros, getInternalSize, getInternalEnd]
  split_ifs <;> omega

theorem mergeZeros_withZeros (hb : b.Shaped) (hmerge : Merges data b o) {u : List UInt8}
    (hu : u.length = b.getInternalSize) : (mergeZeros b o).withZeros u =
      b.withZeros u ++ List.replicate (o.zeroAreaEnd - o.zeroAreaStart) 0 := by
  obtain ⟨hstart, hzeros, hstop⟩ := hb
  obtain ⟨_, hend, _⟩ := hmerge
  by_cases hflat : b.zeroAreaStart = b.zeroAreaEnd
  · have hall : u.length ≤ b.mEnd - b.mStart := by
      rw [hu, getInternalSize]
      omega
    rw [withZeros_flat hflat, withZeros]
    simp only [mergeZeros]
    rw [if_pos hflat, Nat.add_sub_cancel_left, List.take_of_length_le hall,
      List.drop_of_length_le hall, List.append_nil]
  · have hbehind : b.mEnd = b.zeroAreaEnd := hend.resolve_right hflat
    have hall : u.length ≤ b.zeroAreaStart - b.mStart := by
      rw [hu, getInternalSize]
      omega
    have hsum : b.mEnd + (o.zeroAreaEnd - o.zeroAreaStart) - b.zeroAreaStart =
        b.zeroAreaEnd - b.zeroAreaStart + (o.zeroAreaEnd - o.zeroAreaStart) := by omega
    rw [withZeros, withZeros]
    simp only [mergeZeros]
    rw [if_neg hflat, hsum, List.take_of_length_le hall, List.drop_of_length_le hall,
      List.replicate_add, List.append_nil, List.append_nil, List.append_assoc]

theorem content_of_merges (hmerge : Merges data b o) :
    h.content o = List.replicate (o.zeroAreaEnd - o.zeroAreaStart) 0 ++ h.behind o := by
  have hbefore : o.zeroAreaStart - o.mStart = 0 := by
    rw [hmerge.2.2.2.1, Nat.sub_self]
  rw [content, withZeros, behind, hbefore, List.take_zero, List.nil_append]

theorem Sound.behind_length (hs : Sound h bs) (ho : o ∈ bs) :
    (h.behind o).length = o.mEnd - o.zeroAreaEnd := by
  rw [behind, List.length_drop, hs.used_length ho, getInternalSize, Nat.add_sub_cancel_left]

theorem write_nil (hdata : h.block d = some data) (a : ℕ) : h.write d a [] = some h := by
  have hnil : writeAt data.bytes a [] = some data.bytes := if_pos rfl
  rw [write, hdata, Option.bind_eq_bind, Option.bind_some, hnil]
  exact congrArg some (setBlock_block hdata)

theorem writeRange_behind (hs : Sound h bs) (ho : o ∈ bs) (it : BufferIterator)
    (hdata : h.block it.data = some data) (hne : it.data ≠ o.data)
    (hzeros : 0 < o.zeroAreaEnd - o.zeroAreaStart)
    (hcheck : it.CheckNoZero it.current (it.current + (o.mEnd - o.zeroAreaEnd))) :
    h.writeRange it (o.iter (o.zeroAreaEnd - o.mStart)) o.last =
      h.write it.data it.current (h.behind o) := by
  have hshaped := hs.shaped o ho
  have ⟨hstart, _, hstop⟩ := hshaped
  obtain ⟨src, hsrc, _⟩ := hs.held o ho
  have hp : o.getSize - (o.zeroAreaEnd - o.mStart) = o.mEnd - o.zeroAreaEnd := by
    unfold getSize
    omega
  have hguard := writeRange_guard (p := o.zeroAreaEnd - o.mStart) hshaped _ rfl (by
    unfold getSize
    omega) hne (hp ▸ hcheck)
  have hcurrent : (o.iter (o.zeroAreaEnd - o.mStart)).current = o.zeroAreaEnd := by
    show o.mStart + _ = _
    omega
  have hsize : o.last.current - o.zeroAreaEnd = o.mEnd - o.zeroAreaEnd := rfl
  have hbefore : ¬o.zeroAreaEnd ≤ (o.iter (o.zeroAreaEnd - o.mStart)).zeroStart := by
    show ¬o.zeroAreaEnd ≤ o.zeroAreaStart
    omega
  have hinside : min (o.mEnd - o.zeroAreaEnd)
      ((o.iter (o.zeroAreaEnd - o.mStart)).zeroEnd - o.zeroAreaEnd) = 0 := by
    show min (o.mEnd - o.zeroAreaEnd) (o.zeroAreaEnd - o.zeroAreaEnd) = 0
    omega
  have hbehind : min (o.mEnd - o.zeroAreaEnd)
      ((o.iter (o.zeroAreaEnd - o.mStart)).dataEnd - o.zeroAreaEnd) = o.mEnd - o.zeroAreaEnd :=
    Nat.min_self _
  have hfrom : o.zeroAreaEnd - ((o.iter (o.zeroAreaEnd - o.mStart)).zeroEnd -
      (o.iter (o.zeroAreaEnd - o.mStart)).zeroStart) = o.zeroAreaStart := by
    show o.zeroAreaEnd - (o.zeroAreaEnd - o.zeroAreaStart) = o.zeroAreaStart
    omega
  have hread := hs.read_behind ho (le_refl (o.mEnd - o.zeroAreaEnd))
  have hall : ((h.used o).drop (o.zeroAreaStart - o.mStart)).take (o.mEnd - o.zeroAreaEnd) =
      h.behind o := List.take_of_length_le (hs.behind_length ho).le
  rw [hall] at hread
  have hnone : h.read o.data o.zeroAreaEnd 0 = some [] := by
    rw [read, hsrc]
    show readAt src.bytes o.zeroAreaEnd 0 = some []
    exact if_pos (Or.inl rfl)
  unfold writeRange
  dsimp only
  rw [if_pos hguard, hcurrent, if_neg hbefore, hsize, Nat.add_zero, Nat.sub_zero, Nat.add_zero,
    if_pos (show o.zeroAreaEnd ≤ (o.iter (o.zeroAreaEnd - o.mStart)).zeroEnd from le_refl _),
    hinside, Nat.sub_zero, Nat.add_zero, Nat.add_zero, hbehind, hfrom]
  rw [show (o.iter (o.zeroAreaEnd - o.mStart)).data = o.data from rfl, memcpy_of_read hnone,
    write_nil hdata]
  dsimp only [Option.bind_eq_bind, Option.bind_some, List.replicate_zero]
  rw [write_nil hdata, Option.bind_some, memcpy_of_read hread]

/-- What is written too far is in the memory before it already, or repeats. -/
def AlreadyThere (h : BufferHeap) (data : BufferData) (b o : Buffer) : Prop :=
  let space := h.space data b (o.mEnd - o.zeroAreaEnd)
  zerosOf b o + (h.behind o).length ≤ space.length ∧
    ∀ k < (h.behind o).length,
      (h.behind o)[k]? = if k < zerosOf b o then space[k]? else (h.behind o)[k - zerosOf b o]?

/-- What is left of the path on which zero areas meet, when they have. -/
def extendMerged (h : BufferHeap) (b o : Buffer) : Option (BufferHeap × Buffer) := do
  let endData := o.mEnd - o.zeroAreaEnd
  let (h, b) ← h.addAtEnd b endData
  let dst ← b.last.prev endData
  let src ← o.last.prev endData
  let h ← h.writeRange dst src o.last
  some (h, b)

theorem append_of_merges (hdata : h.block b.data = some data) (hmerge : Merges data b o) :
    h.append b o = (h.setBlock b.data (some { data with
      dirtyEnd := (mergeZeros b o).zeroAreaEnd })).extendMerged (mergeZeros b o) o := by
  rw [append, hdata, Option.bind_eq_bind, Option.bind_some, if_pos hmerge]
  have hset : h.setDirty (mergeZeros b o).data data.dirtyStart (mergeZeros b o).zeroAreaEnd =
      some (h.setBlock b.data (some { data with dirtyEnd := (mergeZeros b o).zeroAreaEnd })) :=
    update_eq hdata _
  dsimp only
  rw [hset]
  rfl

theorem extendMerged_write (hs : Sound h (b :: rest)) (hdata : h.block b.data = some data)
    (hone : data.count = 1) (hend : b.mEnd = b.zeroAreaEnd) (ho : o ∈ rest)
    (hzeros : 0 < o.zeroAreaEnd - o.zeroAreaStart) :
    ∃ h₁ b₁, Extended h h₁ rest data b b₁ (o.mEnd - o.zeroAreaEnd) ∧ b₁.data ≠ o.data ∧
      b₁.getInternalEnd = b₁.zeroAreaStart + (o.mEnd - o.zeroAreaEnd) ∧
      h.extendMerged b o = (h₁.write b₁.data
        (b₁.zeroAreaStart + (b.zeroAreaEnd - b.zeroAreaStart)) (h.behind o)).map (·, b₁) := by
  obtain ⟨h₁, b₁, hadd, hx⟩ := addAtEnd_spec hs hdata (o.mEnd - o.zeroAreaEnd)
  have hshaped := hx.sound.shaped b₁ List.mem_cons_self
  have ⟨hstart, hle, hstop⟩ := hshaped
  obtain ⟨data₁, hdata₁, hcount₁⟩ := hx.sole hone
  have hne : b₁.data ≠ o.data := (hx.sound.alone hdata₁ hcount₁ ho).symm
  have hbehind := hx.behind
  rw [hend, Nat.sub_self, Nat.zero_add] at hbehind
  have ho₁ := List.mem_cons_of_mem b₁ ho
  have ⟨hostart, hole, hostop⟩ := hx.sound.shaped o ho₁
  have hcurrent : (b₁.iter (b₁.getSize - (o.mEnd - o.zeroAreaEnd))).current =
      b₁.zeroAreaStart + (b.zeroAreaEnd - b.zeroAreaStart) := by
    have hz := hx.zeros
    show b₁.mStart + (b₁.mEnd - b₁.mStart - (o.mEnd - o.zeroAreaEnd)) = _
    omega
  have hplace : o.getSize - (o.mEnd - o.zeroAreaEnd) = o.zeroAreaEnd - o.mStart := by
    unfold getSize
    omega
  have hz := hx.zeros
  refine ⟨h₁, b₁, hx, hne, by rw [getInternalEnd]; omega, ?_⟩
  have hprev := last_prev (n := o.mEnd - o.zeroAreaEnd) hshaped (by
    unfold getSize
    omega)
  have hprevo := last_prev (n := o.mEnd - o.zeroAreaEnd) (hx.sound.shaped o ho₁) (by
    unfold getSize
    omega)
  rw [hplace] at hprevo
  have hcheck : (b₁.iter (b₁.getSize - (o.mEnd - o.zeroAreaEnd))).CheckNoZero
      (b₁.iter (b₁.getSize - (o.mEnd - o.zeroAreaEnd))).current
      ((b₁.iter (b₁.getSize - (o.mEnd - o.zeroAreaEnd))).current +
        (o.mEnd - o.zeroAreaEnd)) := by
    rw [hcurrent]
    rintro (hlow | hhigh | hin)
    · have hlow : b₁.zeroAreaStart + (b.zeroAreaEnd - b.zeroAreaStart) < b₁.mStart := hlow
      omega
    · have hhigh : b₁.mEnd < b₁.zeroAreaStart + (b.zeroAreaEnd - b.zeroAreaStart) +
        (o.mEnd - o.zeroAreaEnd) := hhigh
      omega
    · have hin : b₁.zeroAreaStart + (b.zeroAreaEnd - b.zeroAreaStart) < b₁.zeroAreaEnd := hin.2.1
      omega
  have hwrite := writeRange_behind hx.sound ho₁ (b₁.iter (b₁.getSize -
    (o.mEnd - o.zeroAreaEnd))) hdata₁ hne hzeros hcheck
  have hsame : h₁.behind o = h.behind o :=
    congrArg (List.drop _) (used_congr (hx.kept o ho))
  have hdata₁ : (b₁.iter (b₁.getSize - (o.mEnd - o.zeroAreaEnd))).data = b₁.data := rfl
  rw [hcurrent, hsame, hdata₁] at hwrite
  rw [extendMerged]
  dsimp only
  rw [hadd]
  dsimp only [Option.bind_eq_bind, Option.bind_some]
  rw [hprev, Option.bind_some, hprevo, Option.bind_some, hwrite]
  cases h₁.write b₁.data (b₁.zeroAreaStart + (b.zeroAreaEnd - b.zeroAreaStart)) (h.behind o) <;> rfl

theorem extendMerged_written {h₁ : BufferHeap} {b₁ : Buffer} {data₁ : BufferData}
    {new : List UInt8} (hs : Sound h (b :: rest))
    (hx : Extended h h₁ rest data b b₁ n) (hdata₁ : h₁.block b₁.data = some data₁)
    (hlength : new.length = data₁.bytes.length)
    (hfront : stretch new b₁.mStart b.getInternalSize =
      stretch data₁.bytes b₁.mStart b.getInternalSize)
    (hkept : ∀ c ∈ rest, (h₁.setBlock b₁.data (some { data₁ with bytes := new })).used c =
      h₁.used c) :
    Sound (h₁.setBlock b₁.data (some { data₁ with bytes := new })) (b₁ :: rest) ∧
      (h₁.setBlock b₁.data (some { data₁ with bytes := new })).content b₁ =
        h.content b ++ stretch new (b₁.getInternalEnd - n) n ∧
      ∀ c ∈ rest, (h₁.setBlock b₁.data (some { data₁ with bytes := new })).used c = h.used c := by
  have hself := block_setBlock_self hdata₁ (some { data₁ with bytes := new })
  have hinternal : b₁.getInternalSize = b.getInternalSize + n := by
    simp only [getInternalSize, hx.before, hx.behind]
    omega
  have hend := (hx.sound.shaped b₁ List.mem_cons_self).internalEnd
  have hplace : b₁.mStart + b.getInternalSize = b₁.getInternalEnd - n := by omega
  have hused := hx.used
  rw [bytes_eq hdata₁] at hused
  refine ⟨hx.sound.write hdata₁ hlength, ?_,
    fun c hc => (hkept c hc).trans (used_congr (hx.kept c hc))⟩
  rw [content, used, bytes_eq hself, hinternal, stretch_add, hfront, hused, hplace]
  refine withZeros_append hx.before hx.zeros ?_
  rw [hs.used_length List.mem_cons_self]
  exact Nat.le_add_right _ _

theorem extendMerged_spec (hs : Sound h (b :: rest)) (hdata : h.block b.data = some data)
    (hone : data.count = 1) (hend : b.mEnd = b.zeroAreaEnd) (ho : o ∈ rest)
    (hzeros : 0 < o.zeroAreaEnd - o.zeroAreaStart) :
    (h.behind o ≠ [] ∧ ¬b.zeroAreaEnd - b.zeroAreaStart + (h.behind o).length ≤
        (h.space data b (o.mEnd - o.zeroAreaEnd)).length ∧ h.extendMerged b o = none) ∨
      ((h.behind o = [] ∨ b.zeroAreaEnd - b.zeroAreaStart + (h.behind o).length ≤
        (h.space data b (o.mEnd - o.zeroAreaEnd)).length) ∧
      ∃ h' b' g, h.extendMerged b o = some (h', b') ∧ Sound h' (b' :: rest) ∧
        h'.content b' = h.content b ++ g ∧ (∀ c ∈ rest, h'.used c = h.used c) ∧
        (g = h.behind o ↔ ∀ k < (h.behind o).length, (h.behind o)[k]? =
          if k < b.zeroAreaEnd - b.zeroAreaStart then
            (h.space data b (o.mEnd - o.zeroAreaEnd))[k]?
          else (h.behind o)[k - (b.zeroAreaEnd - b.zeroAreaStart)]?)) := by
  obtain ⟨h₁, b₁, hx, hne, hinternal, hextend⟩ :=
    extendMerged_write hs hdata hone hend ho hzeros
  have hlength := hs.behind_length (List.mem_cons_of_mem b ho)
  obtain ⟨data₁, hdata₁, hroom₁, _⟩ := hx.sound.held b₁ List.mem_cons_self
  have hspace := hx.space
  rw [hinternal, Nat.add_sub_cancel, bytes_eq hdata₁] at hspace
  rw [← hspace, List.length_drop, hextend]
  generalize b.zeroAreaEnd - b.zeroAreaStart = zeros
  by_cases hnil : h.behind o = []
  · have hzero : o.mEnd - o.zeroAreaEnd = 0 := by rw [← hlength, hnil, List.length_nil]
    have hself : h₁.setBlock b₁.data (some { data₁ with bytes := data₁.bytes }) = h₁ :=
      setBlock_block hdata₁
    obtain ⟨hsound, hcontent, hkept⟩ := extendMerged_written hs hx hdata₁ rfl rfl fun c _ => by
      rw [hself]
    rw [hself] at hsound hcontent hkept
    rw [hzero, stretch_zero] at hcontent
    refine .inr ⟨.inl hnil, h₁, b₁, [], ?_, hsound, hcontent, hkept, ?_⟩
    · rw [hnil, write_nil hdata₁]
      rfl
    · rw [hnil]
      exact iff_of_true rfl fun k hk => absurd hk (Nat.not_lt_zero k)
  · have hpos : 0 < (h.behind o).length := List.length_pos_iff.mpr hnil
    by_cases hroom : zeros + (h.behind o).length ≤ data₁.bytes.length - b₁.zeroAreaStart
    · have hroom' : b₁.zeroAreaStart + zeros + (h.behind o).length ≤ data₁.bytes.length := by omega
      have hsplice := splice_length hroom'
      have hshape := (hx.sound.shaped b₁ List.mem_cons_self).internalEnd
      have hsize : b₁.getInternalSize = b.getInternalSize + (o.mEnd - o.zeroAreaEnd) := by
        simp only [getInternalSize, hx.before, hx.behind]
        omega
      obtain ⟨hsound, hcontent, hkept⟩ := extendMerged_written hs hx hdata₁ hsplice
        (stretch_splice_outside hroom' (.inl (by omega))) fun c hc =>
          used_write hdata₁ hroom' (hx.sound.shaped c (List.mem_cons_of_mem b₁ hc)) fun hcb => by
            have halone := hx.alone c hc hcb
            omega
      refine .inr ⟨.inr hroom, _, b₁, _, ?_, hsound, hcontent, hkept, ?_⟩
      · rw [write_eq hdata₁ hroom']
        rfl
      · rw [hinternal, Nat.add_sub_cancel, ← hlength, stretch_splice_shifted hroom']
        simp only [List.getElem?_drop]
    · refine .inl ⟨hnil, hroom, ?_⟩
      have hfail : writeAt data₁.bytes (b₁.zeroAreaStart + zeros) (h.behind o) = none :=
        writeAt_eq_none hnil (by omega)
      rw [BufferHeap.write, hdata₁, Option.bind_eq_bind, Option.bind_some, hfail]
      rfl

theorem bytes_setDirtyEnd (hdata : h.block d = some data) (m : ℕ) :
    ∀ e, (h.setBlock d (some { data with dirtyEnd := m })).bytes e = h.bytes e :=
  bytes_setBlock hdata rfl

theorem mergeZeros_sound (hs : Sound h (b :: rest)) (hdata : h.block b.data = some data)
    (hmerge : Merges data b o) :
    Sound (h.setBlock b.data (some { data with dirtyEnd := (mergeZeros b o).zeroAreaEnd }))
      (mergeZeros b o :: rest) := by
  have hshaped := hs.shaped b List.mem_cons_self
  obtain ⟨x, hx, hroom, _⟩ := hs.held b List.mem_cons_self
  rw [hdata] at hx
  obtain rfl := Option.some.inj hx
  exact hs.sole hdata hmerge.1 rfl (mergeZeros_shaped hshaped) rfl (le_refl _)
    ((mergeZeros_internal hshaped hmerge).2.trans_le hroom) (le_refl _)

theorem mergeZeros_space (hs : Sound h (b :: rest)) (hdata : h.block b.data = some data)
    (hmerge : Merges data b o) (n : ℕ) :
    (h.setBlock b.data (some { data with dirtyEnd := (mergeZeros b o).zeroAreaEnd })).space
      { data with dirtyEnd := (mergeZeros b o).zeroAreaEnd } (mergeZeros b o) n =
        h.space data b n := by
  obtain ⟨hsize, hend⟩ := mergeZeros_internal (hs.shaped b List.mem_cons_self) hmerge
  have hone := hmerge.1
  have hplace : InPlace { data with dirtyEnd := (mergeZeros b o).zeroAreaEnd } (mergeZeros b o) n ↔
      InPlace data b n := by
    unfold InPlace
    rw [hend]
    exact and_congr_right fun _ => iff_of_true (fun hshared => by
      have hmany : 1 < data.count := hshared.1
      omega) (fun hshared => by omega)
  have hcreated : (h.setBlock b.data (some { data with
      dirtyEnd := (mergeZeros b o).zeroAreaEnd })).created (b.getInternalSize + n) =
      h.created (b.getInternalSize + n) := by
    apply createdFrom_congr
    · exact List.length_set
    · rfl
    · exact fun d _ => bytes_setDirtyEnd hdata _ d
  unfold space
  rw [hsize, hend, hcreated]
  by_cases hin : InPlace data b n
  · rw [if_pos hin, if_pos (hplace.mpr hin)]
  · rw [if_neg hin, if_neg fun hmerged => hin (hplace.mp hmerged)]

/-- When this one shows the other behind what it showed, and nothing else changes. -/
def Concatenates (h : BufferHeap) (b o : Buffer) (rest : List Buffer) : Prop :=
  ∃ h' b', h.append b o = some (h', b') ∧ h'.content b' = h.content b ++ h.content o ∧
    ∀ c ∈ rest, h'.content c = h.content c

theorem append_merges (hs : Sound h (b :: rest)) (hdata : h.block b.data = some data)
    (ho : o ∈ rest) (hmerge : Merges data b o) :
    (h.append b o = none ∨ ∃ h' b', h.append b o = some (h', b') ∧ Sound h' (b' :: rest)) ∧
      (h.Concatenates b o rest ↔ o.mEnd = o.zeroAreaEnd ∨ h.AlreadyThere data b o) := by
  have hsound := mergeZeros_sound hs hdata hmerge
  have hself := block_setBlock_self hdata
    (some { data with dirtyEnd := (mergeZeros b o).zeroAreaEnd })
  have hused : ∀ c, (h.setBlock b.data (some { data with
      dirtyEnd := (mergeZeros b o).zeroAreaEnd })).used c = h.used c := fun c =>
    used_congr (bytes_setDirtyEnd hdata _ _)
  have hbehind : (h.setBlock b.data (some { data with
      dirtyEnd := (mergeZeros b o).zeroAreaEnd })).behind o = h.behind o :=
    congrArg (List.drop _) (hused o)
  have hcontent : (h.setBlock b.data (some { data with
      dirtyEnd := (mergeZeros b o).zeroAreaEnd })).content (mergeZeros b o) =
      h.content b ++ List.replicate (o.zeroAreaEnd - o.zeroAreaStart) 0 := by
    have hsame : (h.setBlock b.data (some { data with
        dirtyEnd := (mergeZeros b o).zeroAreaEnd })).used (mergeZeros b o) = h.used b := by
      rw [hused, used, used, (mergeZeros_internal (hs.shaped b List.mem_cons_self) hmerge).1]
      rfl
    rw [content, hsame]
    exact mergeZeros_withZeros (hs.shaped b List.mem_cons_self) hmerge
      (hs.used_length List.mem_cons_self)
  have hlength := hs.behind_length (List.mem_cons_of_mem b ho)
  have hend : o.mEnd = o.zeroAreaEnd ↔ h.behind o = [] := by
    have hstop := (hs.shaped o (List.mem_cons_of_mem b ho)).stop
    rw [← List.length_eq_zero_iff]
    omega
  rw [hend]
  have hspec := extendMerged_spec hsound hself hmerge.1 rfl ho hmerge.2.2.2.2
  rw [hbehind, mergeZeros_space hs hdata hmerge, ← append_of_merges hdata hmerge] at hspec
  cases hspec with
  | inl hfails =>
    obtain ⟨hnil, hroom, hnone⟩ := hfails
    refine ⟨.inl hnone, iff_of_false ?_ ?_⟩
    · rintro ⟨h', b', happend, _⟩
      rw [hnone] at happend
      cases happend
    · rintro (hnil' | hthere)
      · exact hnil hnil'
      · exact hroom hthere.1
  | inr hdone =>
    obtain ⟨hroom, h', b', g, happend, hsound', hshown, hkept, hg⟩ := hdone
    refine ⟨.inr ⟨h', b', happend, hsound'⟩, ?_⟩
    have hconcat : h.Concatenates b o rest ↔ g = h.behind o := by
      constructor
      · rintro ⟨h'', b'', happend', hcat, _⟩
        rw [happend] at happend'
        obtain ⟨rfl, rfl⟩ := Prod.mk.inj (Option.some.inj happend')
        rw [hshown, hcontent, content_of_merges (o := o) hmerge, List.append_assoc] at hcat
        exact List.append_cancel_left (List.append_cancel_left hcat)
      · intro heq
        refine ⟨h', b', happend, ?_, fun c hc => content_congr ((hkept c hc).trans (hused c))⟩
        rw [hshown, hcontent, content_of_merges (o := o) hmerge, heq, List.append_assoc]
    rw [hconcat, hg]
    constructor
    · intro hreads
      cases hroom with
      | inl hnil => exact .inl hnil
      | inr hroom => exact .inr ⟨hroom, hreads⟩
    · rintro (hnil | hthere)
      · rw [hnil]
        exact fun k hk => absurd hk (Nat.not_lt_zero k)
      · exact hthere.2

/-- The exact condition under which `AddAtEnd` concatenates two buffers. -/
def Concatenable (h : BufferHeap) (data : BufferData) (b o : Buffer) : Prop :=
  (Merges data b o → o.mEnd = o.zeroAreaEnd ∨ h.AlreadyThere data b o) ∧
    (¬Merges data b o → ¬Collides data b o)

theorem concatenates_iff (hs : Sound h (b :: rest)) (hdata : h.block b.data = some data)
    (ho : o ∈ rest) : h.Concatenates b o rest ↔ h.Concatenable data b o := by
  by_cases hmerge : Merges data b o
  · rw [(append_merges hs hdata ho hmerge).2]
    exact ⟨fun hok => ⟨fun _ => hok, fun hnot => absurd hmerge hnot⟩, fun hok => hok.1 hmerge⟩
  · cases append_copies hs hdata ho hmerge with
    | inl hfails =>
      refine iff_of_false ?_ fun hok => hok.2 hmerge hfails.1
      rintro ⟨h', b', happend, _⟩
      rw [hfails.2] at happend
      cases happend
    | inr hdone =>
      obtain ⟨hfree, h', b', happend, _, hcat, hkept⟩ := hdone
      exact iff_of_true ⟨h', b', happend, hcat, fun c hc => content_congr (hkept c hc)⟩
        ⟨fun hyes => absurd hyes hmerge, fun _ => hfree⟩

theorem append_sound (hs : Sound h (b :: rest)) (ho : o ∈ rest)
    (happend : h.append b o = some (h', b')) : Sound h' (b' :: rest) := by
  obtain ⟨data, hdata, _⟩ := hs.held b List.mem_cons_self
  have hdone : ∃ h₁ b₁, h.append b o = some (h₁, b₁) ∧ Sound h₁ (b₁ :: rest) := by
    by_cases hmerge : Merges data b o
    · refine (append_merges hs hdata ho hmerge).1.resolve_left fun hnone => ?_
      rw [hnone] at happend
      cases happend
    · cases append_copies hs hdata ho hmerge with
      | inl hfails =>
        rw [hfails.2] at happend
        cases happend
      | inr hdone =>
        obtain ⟨_, h₁, b₁, hsome, hsound, _⟩ := hdone
        exact ⟨h₁, b₁, hsome, hsound⟩
  obtain ⟨h₁, b₁, hsome, hsound⟩ := hdone
  rw [happend] at hsome
  obtain ⟨rfl, rfl⟩ := Prod.mk.inj (Option.some.inj hsome)
  exact hsound

end BufferHeap
end NetGymSim.Network

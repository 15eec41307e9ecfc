import Mathlib.Data.Nat.Basic
import Mathlib.Order.Basic
import NetGymSim.Network.Buffer

/-!
# Sound heaps of buffers

A buffer fits the block it is on, whose count is not below the number of buffers there. What ends
at the dirty area's end has no bytes of another buffer behind it, so that it may grow in place.
-/

namespace NetGymSim.Network
open NetGymSim.Lib

namespace Buffer
variable {b : Buffer}

structure Shaped (b : Buffer) : Prop where
  start : b.mStart ≤ b.zeroAreaStart
  zeros : b.zeroAreaStart ≤ b.zeroAreaEnd
  stop : b.zeroAreaEnd ≤ b.mEnd

def refs (bs : List Buffer) (d : ℕ) : ℕ := bs.countP fun b => b.data = d

def empty (d : ℕ) : Buffer := ⟨d, 0, 0, 0, 0, 0⟩

theorem refs_cons (b : Buffer) (bs : List Buffer) (d : ℕ) :
    refs (b :: bs) d = refs bs d + if b.data = d then 1 else 0 := by
  simp [refs, List.countP_cons]

theorem refs_pos {bs : List Buffer} (hb : b ∈ bs) : 0 < refs bs b.data :=
  List.countP_pos_iff.mpr ⟨b, hb, by simp⟩

theorem Shaped.internalEnd (h : b.Shaped) :
    b.mStart + b.getInternalSize = b.getInternalEnd := by
  obtain ⟨hstart, hzeros, hstop⟩ := h
  simp only [getInternalSize, getInternalEnd]
  omega

structure Shrinks (b b' : Buffer) : Prop where
  data : b'.data = b.data
  shaped : b'.Shaped
  stop : b'.mEnd ≤ b.mEnd
  internalEnd : b'.getInternalEnd ≤ b.getInternalEnd
  whole : b'.mEnd = b.mEnd → b'.getInternalEnd = b.getInternalEnd

theorem removeAtStart_shrinks (h : b.Shaped) (start : ℕ) : b.Shrinks (b.removeAtStart start) := by
  obtain ⟨hstart, hzeros, hstop⟩ := h
  unfold removeAtStart
  dsimp only
  split_ifs with hbefore hinside hbehind <;>
    refine ⟨rfl, ⟨?_, ?_, ?_⟩, ?_, ?_, fun hwhole => ?_⟩ <;>
      simp only [raiseMax, getInternalEnd] at * <;> omega

theorem removeAtEnd_shrinks (h : b.Shaped) (stop : ℕ) : b.Shrinks (b.removeAtEnd stop) := by
  obtain ⟨hstart, hzeros, hstop⟩ := h
  unfold removeAtEnd
  dsimp only
  split_ifs with hbehind hinside hbefore <;>
    refine ⟨rfl, ⟨?_, ?_, ?_⟩, ?_, ?_, fun hwhole => ?_⟩ <;>
      simp only [raiseMax, getInternalEnd] at * <;> omega

end Buffer

namespace BufferHeap
open Buffer
variable {h h' : BufferHeap} {b b' c : Buffer} {rest bs cs : List Buffer}
  {data data' : BufferData} {d e n : ℕ}

def bytes (h : BufferHeap) (d : ℕ) : List UInt8 := (h.block d).elim [] BufferData.bytes

def used (h : BufferHeap) (b : Buffer) : List UInt8 :=
  stretch (h.bytes b.data) b.mStart b.getInternalSize

theorem bytes_eq (hd : h.block d = some data) : h.bytes d = data.bytes := by
  rw [bytes, hd]
  rfl

theorem block_lt (hd : h.block d = some data) : d < h.blocks.length := by
  by_contra hlt
  rw [block, List.getElem?_eq_none (Nat.le_of_not_lt hlt)] at hd
  cases hd

theorem block_setBlock_self (hd : h.block d = some data) (x : Option BufferData) :
    (h.setBlock d x).block d = x := by
  rw [block, setBlock, List.getElem?_set_self (block_lt hd)]
  rfl

theorem block_setBlock_ne (hne : e ≠ d) (x : Option BufferData) :
    (h.setBlock d x).block e = h.block e := by
  rw [block, setBlock, List.getElem?_set_ne hne.symm]
  rfl

theorem setBlock_block (hd : h.block d = some data) : h.setBlock d (some data) = h := by
  have hlt := block_lt hd
  rw [block, List.getElem?_eq_getElem hlt] at hd
  have hget : h.blocks[d] = some data := hd
  rw [setBlock, ← hget, List.set_getElem_self]

theorem update_eq (hd : h.block d = some data) (f : BufferData → BufferData) :
    h.update d f = some (h.setBlock d (some (f data))) := by
  rw [update, hd]
  rfl

theorem bytes_setBlock_ne (hne : e ≠ d) (x : Option BufferData) :
    (h.setBlock d x).bytes e = h.bytes e := by
  rw [bytes, block_setBlock_ne hne]
  rfl

theorem bytes_setBlock (hd : h.block d = some data) (hbytes : data'.bytes = data.bytes) (e : ℕ) :
    (h.setBlock d (some data')).bytes e = h.bytes e := by
  by_cases he : e = d
  · rw [he, bytes_eq (block_setBlock_self hd _), bytes_eq hd, hbytes]
  · exact bytes_setBlock_ne he _

structure Sound (h : BufferHeap) (bs : List Buffer) : Prop where
  shaped : ∀ b ∈ bs, b.Shaped
  held : ∀ b ∈ bs, ∃ data, h.block b.data = some data ∧ b.getInternalEnd ≤ data.bytes.length ∧
    b.mEnd ≤ data.dirtyEnd
  front : ∀ b ∈ bs, ∀ data, h.block b.data = some data → b.mEnd = data.dirtyEnd →
    ∀ c ∈ bs, c.data = b.data → c.getInternalEnd ≤ b.getInternalEnd
  counts : ∀ d data, h.block d = some data → refs bs d ≤ data.count
  free : ∀ d ∈ h.freeList, ∃ data, h.block d = some data ∧ data.count = 0
  nodup : h.freeList.Nodup

theorem Sound.perm (hs : Sound h bs) (hperm : bs.Perm cs) : Sound h cs where
  shaped b hb := hs.shaped b (hperm.mem_iff.mpr hb)
  held b hb := hs.held b (hperm.mem_iff.mpr hb)
  front b hb data hdata hend c hc :=
    hs.front b (hperm.mem_iff.mpr hb) data hdata hend c (hperm.mem_iff.mpr hc)
  counts d data hdata := (hperm.countP_eq _).symm.le.trans (hs.counts d data hdata)
  free := hs.free
  nodup := hs.nodup

theorem Sound.transfer (hs : Sound h bs)
    (hblock : ∀ c ∈ bs, ∀ x, h.block c.data = some x → ∃ x', h'.block c.data = some x' ∧
      x'.bytes.length = x.bytes.length ∧ x'.dirtyEnd = x.dirtyEnd)
    (hcounts : ∀ d x, h'.block d = some x → refs bs d ≤ x.count)
    (hfree : ∀ d ∈ h'.freeList, ∃ x, h'.block d = some x ∧ x.count = 0)
    (hnodup : h'.freeList.Nodup) : Sound h' bs := by
  refine ⟨hs.shaped, fun b hb => ?_, fun b hb x' hx' hend c hc hsame => ?_, hcounts, hfree, hnodup⟩
  · obtain ⟨x, hx, hroom, hdirty⟩ := hs.held b hb
    obtain ⟨x', hx', hlength, hstop⟩ := hblock b hb x hx
    exact ⟨x', hx', hlength ▸ hroom, hstop ▸ hdirty⟩
  · obtain ⟨x, hx, _⟩ := hs.held b hb
    obtain ⟨y, hy, _, hstop⟩ := hblock b hb x hx
    rw [hx'] at hy
    obtain rfl := Option.some.inj hy
    exact hs.front b hb x hx (hend.trans hstop) c hc hsame

theorem Sound.tail (hs : Sound h (b :: rest)) : Sound h rest where
  shaped c hc := hs.shaped c (List.mem_cons_of_mem b hc)
  held c hc := hs.held c (List.mem_cons_of_mem b hc)
  front c hc data hdata hend c' hc' :=
    hs.front c (List.mem_cons_of_mem b hc) data hdata hend c' (List.mem_cons_of_mem b hc')
  counts d data hdata := by
    have hcount := hs.counts d data hdata
    rw [refs_cons] at hcount
    omega
  free := hs.free
  nodup := hs.nodup

theorem Sound.congr (hs : Sound h bs) (hblock : ∀ d, h'.block d = h.block d)
    (hfree : h'.freeList = h.freeList) : Sound h' bs where
  shaped := hs.shaped
  held b hb := by rw [hblock]; exact hs.held b hb
  front b hb data hdata := hs.front b hb data (hblock b.data ▸ hdata)
  counts d data hdata := hs.counts d data (hblock d ▸ hdata)
  free d hd := by rw [hblock]; exact hs.free d (hfree ▸ hd)
  nodup := hfree ▸ hs.nodup

theorem Sound.count_pos (hs : Sound h bs) (hb : b ∈ bs) (hdata : h.block b.data = some data) :
    0 < data.count :=
  (refs_pos hb).trans_le (hs.counts b.data data hdata)

theorem Sound.not_free (hs : Sound h bs) (hb : b ∈ bs) : b.data ∉ h.freeList := by
  intro hmem
  obtain ⟨data, hdata, hzero⟩ := hs.free b.data hmem
  have hpos := hs.count_pos hb hdata
  omega

theorem Sound.alone (hs : Sound h (b :: rest)) (hdata : h.block b.data = some data)
    (hcount : data.count = 1) (hc : c ∈ rest) : c.data ≠ b.data := by
  intro heq
  have hrefs := hs.counts b.data data hdata
  have hpos := refs_pos hc
  rw [refs_cons, if_pos rfl] at hrefs
  rw [heq] at hpos
  omega

theorem Sound.put (hs : Sound h (b :: rest)) (hdata : h.block b.data = some data)
    (hb : b'.data = b.data) (hshaped : b'.Shaped) (hcount : data'.count = data.count)
    (hlength : data.bytes.length ≤ data'.bytes.length)
    (hroom : b'.getInternalEnd ≤ data'.bytes.length)
    (hdirty : b'.mEnd ≤ data'.dirtyEnd)
    (hrest : ∀ c ∈ rest, c.data = b.data →
      c.mEnd ≤ data'.dirtyEnd ∧ (b'.mEnd = data'.dirtyEnd → c.getInternalEnd ≤ b'.getInternalEnd) ∧
        (c.mEnd = data'.dirtyEnd → b'.getInternalEnd ≤ c.getInternalEnd ∧ c.mEnd = data.dirtyEnd)) :
    Sound (h.setBlock b.data (some data')) (b' :: rest) := by
  have hself := block_setBlock_self hdata (some data')
  have hrefs : ∀ d, refs (b' :: rest) d = refs (b :: rest) d := fun d => by
    rw [refs_cons, refs_cons, hb]
  refine ⟨fun c hc => ?_, fun c hc => ?_, fun c hc x hx hend c' hc' hsame => ?_,
    fun d x hx => ?_, fun d hd => ?_, hs.nodup⟩
  · cases List.mem_cons.mp hc with
    | inl heq => exact heq ▸ hshaped
    | inr hmem => exact hs.shaped c (List.mem_cons_of_mem b hmem)
  · cases List.mem_cons.mp hc with
    | inl heq =>
      rw [heq, hb]
      exact ⟨data', hself, hroom, hdirty⟩
    | inr hmem =>
      obtain ⟨x, hx, hfits, hin⟩ := hs.held c (List.mem_cons_of_mem b hmem)
      by_cases hcb : c.data = b.data
      · rw [hcb, hdata] at hx
        obtain rfl := Option.some.inj hx
        rw [hcb]
        exact ⟨data', hself, hfits.trans hlength, (hrest c hmem hcb).1⟩
      · exact ⟨x, (block_setBlock_ne hcb _).trans hx, hfits, hin⟩
  · by_cases hcb : c.data = b.data
    · rw [hcb, hself] at hx
      obtain rfl := Option.some.inj hx
      have hcb' : c'.data = b.data := hsame.trans hcb
      cases List.mem_cons.mp hc with
      | inl heq =>
        cases List.mem_cons.mp hc' with
        | inl heq' => rw [heq, heq']
        | inr hmem' => exact heq ▸ (hrest c' hmem' hcb').2.1 (heq ▸ hend)
      | inr hmem =>
        obtain ⟨hle, hold⟩ := (hrest c hmem hcb).2.2 hend
        cases List.mem_cons.mp hc' with
        | inl heq' => exact heq' ▸ hle
        | inr hmem' =>
          exact hs.front c (List.mem_cons_of_mem b hmem) data (hcb ▸ hdata) hold c'
            (List.mem_cons_of_mem b hmem') hsame
    · rw [block_setBlock_ne hcb] at hx
      have hother : ∀ c ∈ b' :: rest, c.data ≠ b.data → c ∈ b :: rest := by
        intro c hc hne
        cases List.mem_cons.mp hc with
        | inl heq => exact absurd (heq ▸ hb) hne
        | inr hmem => exact List.mem_cons_of_mem b hmem
      exact hs.front c (hother c hc hcb) x hx hend c' (hother c' hc' (hsame ▸ hcb)) hsame
  · rw [hrefs]
    by_cases hd : d = b.data
    · rw [hd, hself] at hx
      rw [← Option.some.inj hx, hcount, hd]
      exact hs.counts b.data data hdata
    · exact hs.counts d x ((block_setBlock_ne hd _).symm.trans hx)
  · have hne : d ≠ b.data := fun heq => hs.not_free List.mem_cons_self (heq ▸ hd)
    rw [block_setBlock_ne hne]
    exact hs.free d hd

theorem Sound.sole (hs : Sound h (b :: rest)) (hdata : h.block b.data = some data)
    (hone : data.count = 1) (hb : b'.data = b.data) (hshaped : b'.Shaped)
    (hcount : data'.count = data.count) (hlength : data.bytes.length ≤ data'.bytes.length)
    (hroom : b'.getInternalEnd ≤ data'.bytes.length)
    (hdirty : b'.mEnd ≤ data'.dirtyEnd) :
    Sound (h.setBlock b.data (some data')) (b' :: rest) :=
  hs.put hdata hb hshaped hcount hlength hroom hdirty fun _ hc hcb =>
    absurd hcb (hs.alone hdata hone hc)

theorem Sound.shrink (hs : Sound h (b :: rest)) (hb : b.Shrinks b') : Sound h (b' :: rest) := by
  obtain ⟨data, hdata, hroom, hdirty⟩ := hs.held b List.mem_cons_self
  rw [← setBlock_block hdata]
  have hstop := hb.stop
  refine hs.put hdata hb.data hb.shaped rfl (le_refl _) (hb.internalEnd.trans hroom)
    (by omega) fun c hc hcb => ?_
  have hmem := List.mem_cons_of_mem b hc
  obtain ⟨x, hx, _, hin⟩ := hs.held c hmem
  rw [hcb, hdata] at hx
  obtain rfl := Option.some.inj hx
  refine ⟨hin, fun hend => ?_, fun hend => ⟨?_, hend⟩⟩
  · have hwhole : b'.mEnd = b.mEnd := by omega
    rw [hb.whole hwhole]
    exact hs.front b List.mem_cons_self data hdata (by omega) c hmem hcb
  · exact hb.internalEnd.trans
      (hs.front c hmem data (hcb ▸ hdata) hend b List.mem_cons_self hcb.symm)

theorem Sound.refit (hs : Sound h (b :: rest)) (hdata : h.block b.data = some data)
    (hb : b'.data = b.data) (hshaped : b'.Shaped) (hstop : b'.mEnd = b.mEnd)
    (hinternal : b'.getInternalEnd = b.getInternalEnd) (hcount : data'.count = data.count)
    (hlength : data'.bytes.length = data.bytes.length) (hdirty : data'.dirtyEnd = data.dirtyEnd) :
    Sound (h.setBlock b.data (some data')) (b' :: rest) := by
  obtain ⟨x, hx, hroom, hin⟩ := hs.held b List.mem_cons_self
  rw [hdata] at hx
  obtain rfl := Option.some.inj hx
  refine hs.put hdata hb hshaped hcount hlength.ge (by omega) (by omega) fun c hc hcb => ?_
  have hmem := List.mem_cons_of_mem b hc
  obtain ⟨x, hx, _, hcin⟩ := hs.held c hmem
  rw [hcb, hdata] at hx
  obtain rfl := Option.some.inj hx
  rw [hdirty, hstop, hinternal]
  exact ⟨hcin, fun hend => hs.front b List.mem_cons_self data hdata hend c hmem hcb,
    fun hend => ⟨hs.front c hmem data (hcb ▸ hdata) hend b List.mem_cons_self hcb.symm, hend⟩⟩

theorem Sound.refit_max (hs : Sound h (b :: rest)) (m : ℕ) :
    Sound h ({ b with maxZeroAreaStart := m } :: rest) := by
  obtain ⟨data, hdata, _⟩ := hs.held b List.mem_cons_self
  have hshaped := hs.shaped b List.mem_cons_self
  have hsound : Sound (h.setBlock b.data (some data)) ({ b with maxZeroAreaStart := m } :: rest) :=
    hs.refit hdata rfl ⟨hshaped.start, hshaped.zeros, hshaped.stop⟩ rfl rfl rfl rfl rfl
  rwa [setBlock_block hdata] at hsound

theorem Sound.write (hs : Sound h (b :: rest)) (hdata : h.block b.data = some data)
    {new : List UInt8} (hlength : new.length = data.bytes.length) :
    Sound (h.setBlock b.data (some { data with bytes := new })) (b :: rest) :=
  hs.refit hdata rfl (hs.shaped b List.mem_cons_self) rfl rfl rfl hlength rfl

theorem Sound.share (hs : Sound h (b :: rest)) (m : ℕ) :
    ∃ h', h.addCount b.data = some h' ∧
      Sound h' ({ b with maxZeroAreaStart := m } :: b :: rest) ∧
      (∀ d, h'.bytes d = h.bytes d) := by
  obtain ⟨data, hdata, hheld⟩ := hs.held b List.mem_cons_self
  have hself := block_setBlock_self hdata (some { data with count := data.count + 1 })
  have hmem : ∀ c ∈ { b with maxZeroAreaStart := m } :: b :: rest, ∃ x ∈ b :: rest,
      x.data = c.data ∧ x.mEnd = c.mEnd ∧
        x.getInternalEnd = c.getInternalEnd ∧ (x.Shaped → c.Shaped) := by
    intro c hc
    cases List.mem_cons.mp hc with
    | inl heq =>
      rw [heq]
      exact ⟨b, List.mem_cons_self, rfl, rfl, rfl, fun hb => ⟨hb.start, hb.zeros, hb.stop⟩⟩
    | inr hin => exact ⟨c, hin, rfl, rfl, rfl, id⟩
  refine ⟨_, update_eq hdata _, ⟨fun c hc => ?_, fun c hc => ?_,
    fun c hc x hx hend c' hc' hsame => ?_, fun d x hx => ?_, fun d hd => ?_, hs.nodup⟩,
    bytes_setBlock hdata rfl⟩
  · obtain ⟨x, hx, _, _, _, hshaped⟩ := hmem c hc
    exact hshaped (hs.shaped x hx)
  · obtain ⟨x, hx, hd, hstop, hend, _⟩ := hmem c hc
    obtain ⟨y, hy, hfits⟩ := hs.held x hx
    rw [hd, hstop, hend] at *
    by_cases hcb : c.data = b.data
    · rw [hcb, hdata] at hy
      obtain rfl := Option.some.inj hy
      rw [hcb]
      exact ⟨_, hself, hfits⟩
    · exact ⟨y, (block_setBlock_ne hcb _).trans hy, hfits⟩
  · obtain ⟨y, hy, hyd, hystop, hyend, _⟩ := hmem c hc
    obtain ⟨z, hz, hzd, _, hzend, _⟩ := hmem c' hc'
    rw [← hyend, ← hzend]
    by_cases hcb : c.data = b.data
    · rw [hcb, hself] at hx
      have hdirty : x.dirtyEnd = data.dirtyEnd := by rw [← Option.some.inj hx]
      exact hs.front y hy data (by rw [hyd, hcb, hdata]) (by rw [hystop, hend, hdirty]) z hz
        (by rw [hzd, hsame, hyd])
    · rw [block_setBlock_ne hcb] at hx
      exact hs.front y hy x (by rw [hyd, hx]) (by rw [hystop, hend]) z hz
        (by rw [hzd, hsame, hyd])
  · rw [refs_cons]
    by_cases hd : d = b.data
    · rw [hd, hself] at hx
      have hcount := hs.counts b.data data hdata
      rw [← Option.some.inj hx, hd, if_pos rfl]
      exact Nat.succ_le_succ hcount
    · rw [if_neg (Ne.symm hd), Nat.add_zero]
      exact hs.counts d x ((block_setBlock_ne hd _).symm.trans hx)
  · have hne : d ≠ b.data := fun heq => hs.not_free List.mem_cons_self (heq ▸ hd)
    rw [block_setBlock_ne hne]
    exact hs.free d hd

end BufferHeap
end NetGymSim.Network

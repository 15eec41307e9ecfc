import NetGymSim.Network.BufferGrowth

/-!
# What a buffer shows

The content of a buffer is what is copied out of it. A full copy is made on a block of its own,
front to back, and has no zero area.
-/

namespace NetGymSim.Network
open NetGymSim.Lib

namespace Buffer
variable {b b' : Buffer} {n : ℕ}

def withZeros (b : Buffer) (used : List UInt8) : List UInt8 :=
  used.take (b.zeroAreaStart - b.mStart) ++ List.replicate (b.zeroAreaEnd - b.zeroAreaStart) 0 ++
    used.drop (b.zeroAreaStart - b.mStart)

def iter (b : Buffer) (p : ℕ) : BufferIterator :=
  ⟨b.zeroAreaStart, b.zeroAreaEnd, b.mStart, b.mEnd, b.mStart + p, b.data⟩

theorem last_prev (hb : b.Shaped) (hn : n ≤ b.getSize) :
    b.last.prev n = some (b.iter (b.getSize - n)) := by
  obtain ⟨hstart, hzeros, hstop⟩ := hb
  unfold getSize at *
  have hcurrent : b.mEnd - n = b.mStart + (b.mEnd - b.mStart - n) := by omega
  have hroom : n ≤ b.last.current := show n ≤ b.mEnd by omega
  rw [BufferIterator.prev, if_pos hroom]
  simp only [last, iter, hcurrent]

theorem getSize_eq (hb : b.Shaped) :
    b.getSize = b.getInternalSize + (b.zeroAreaEnd - b.zeroAreaStart) := by
  obtain ⟨hstart, hzeros, hstop⟩ := hb
  simp only [getSize, getInternalSize]
  omega

theorem withZeros_length (hb : b.Shaped) {used : List UInt8}
    (hused : used.length = b.getInternalSize) : (b.withZeros used).length = b.getSize := by
  rw [getSize_eq hb, ← hused]
  simp only [withZeros, List.length_append, List.length_take, List.length_drop,
    List.length_replicate]
  omega

theorem withZeros_flat (hb : b.zeroAreaStart = b.zeroAreaEnd) (used : List UInt8) :
    b.withZeros used = used := by
  rw [withZeros, hb, Nat.sub_self, List.replicate_zero, List.append_nil, List.take_append_drop]

theorem checkNoZero_flat (hb : b.zeroAreaStart = b.zeroAreaEnd) (p stop : ℕ)
    (hstop : stop ≤ b.mEnd) : (b.iter p).CheckNoZero (b.iter p).current stop := by
  rintro (hlow | hhigh | hin)
  · exact absurd hlow (Nat.not_lt.mpr (Nat.le_add_right _ _))
  · exact absurd hhigh (Nat.not_lt.mpr hstop)
  · exact hin.2.2.1 hb.symm

theorem withZeros_append (hbefore : b'.zeroAreaStart - b'.mStart = b.zeroAreaStart - b.mStart)
    (hzeros : b'.zeroAreaEnd - b'.zeroAreaStart = b.zeroAreaEnd - b.zeroAreaStart)
    {used new : List UInt8} (hused : b.zeroAreaStart - b.mStart ≤ used.length) :
    b'.withZeros (used ++ new) = b.withZeros used ++ new := by
  rw [withZeros, withZeros, hbefore, hzeros, List.take_append_of_le_length hused,
    List.drop_append_of_le_length hused, List.append_assoc _ _ new]

end Buffer

namespace BufferHeap
open Buffer
variable {h h' : BufferHeap} {b b' c : Buffer} {rest bs : List Buffer}
  {data : BufferData} {d n p : ℕ} {u new : List UInt8}

def content (h : BufferHeap) (b : Buffer) : List UInt8 := b.withZeros (h.used b)

theorem content_congr (hused : h'.used c = h.used c) : h'.content c = h.content c :=
  congrArg c.withZeros hused

theorem Sound.content_length (hs : Sound h bs) (hb : b ∈ bs) :
    (h.content b).length = b.getSize :=
  withZeros_length (hs.shaped b hb) (hs.used_length hb)

theorem Sound.read_before (hs : Sound h bs) (hb : b ∈ bs) (hn : n ≤ b.zeroAreaStart - b.mStart) :
    h.read b.data b.mStart n = some ((h.used b).take n) := by
  obtain ⟨data, hdata, hroom, _⟩ := hs.held b hb
  have hend := (hs.shaped b hb).internalEnd
  have hsize : n ≤ b.getInternalSize := hn.trans (Nat.le_add_right _ _)
  rw [read_eq hdata (by omega), used, bytes_eq hdata, stretch, stretch, List.take_take,
    Nat.min_eq_left hsize]

theorem Sound.read_behind (hs : Sound h bs) (hb : b ∈ bs) (hn : n ≤ b.mEnd - b.zeroAreaEnd) :
    h.read b.data b.zeroAreaStart n =
      some (((h.used b).drop (b.zeroAreaStart - b.mStart)).take n) := by
  obtain ⟨data, hdata, hroom, _⟩ := hs.held b hb
  have hshaped := hs.shaped b hb
  have hend := hshaped.internalEnd
  have hstart := hshaped.start
  have hsize : b.getInternalSize = b.zeroAreaStart - b.mStart + (b.mEnd - b.zeroAreaEnd) := rfl
  have hplace : b.mStart + (b.zeroAreaStart - b.mStart) = b.zeroAreaStart := by omega
  rw [read_eq hdata (by omega), used, bytes_eq hdata, hsize, stretch_add, hplace,
    List.drop_left' (stretch_length (by omega)), stretch, stretch, List.take_take,
    Nat.min_eq_left hn]

structure Flat (h h' : BufferHeap) (rest : List Buffer) (b : Buffer) (u : List UInt8) : Prop where
  sound : Sound h' (b :: rest)
  one : ∃ data, h'.block b.data = some data ∧ data.count = 1
  flat : b.zeroAreaStart = b.zeroAreaEnd
  used : h'.used b = u
  kept : ∀ c ∈ rest, h'.used c = h.used c

namespace Flat

theorem length (hf : Flat h h' rest b u) : u.length = b.getInternalSize :=
  hf.used ▸ hf.sound.used_length List.mem_cons_self

theorem size (hf : Flat h h' rest b u) : b.getSize = u.length := by
  rw [getSize_eq (hf.sound.shaped b List.mem_cons_self), hf.length, hf.flat, Nat.sub_self]
  rfl

theorem alone (hf : Flat h h' rest b u) (hc : c ∈ rest) : c.data ≠ b.data := by
  obtain ⟨data, hdata, hcount⟩ := hf.one
  exact hf.sound.alone hdata hcount hc

theorem addAtStart (hf : Flat h h' rest b u) (n : ℕ) :
    ∃ h₁ b₁ g, h'.addAtStart b n = some (h₁, b₁) ∧ g.length = n ∧
      Flat h h₁ rest b₁ (g ++ u) := by
  obtain ⟨data, hdata, hcount⟩ := hf.one
  cases addAtStart_spec hf.sound hdata n with
  | inl hfails => exact absurd hfails.2 (by omega)
  | inr hdone =>
    obtain ⟨h₁, b₁, hadd, hp⟩ := hdone
    have hsize : b₁.getInternalSize = n + b.getInternalSize := by
      simp only [getInternalSize, hp.before, hp.behind]
      omega
    have hlength := hp.sound.used_length List.mem_cons_self
    have hzeros := hp.zeros
    have hle := (hp.sound.shaped b₁ List.mem_cons_self).zeros
    have hflat := hf.flat
    refine ⟨h₁, b₁, stretch (h₁.bytes b₁.data) b₁.mStart n, hadd, ?_, hp.sound, hp.sole hcount,
      by omega, ?_, fun c hc => (used_congr (hp.kept c hc)).trans (hf.kept c hc)⟩
    · obtain ⟨data₁, hdata₁, hroom, _⟩ := hp.sound.held b₁ List.mem_cons_self
      have hend := (hp.sound.shaped b₁ List.mem_cons_self).internalEnd
      rw [bytes_eq hdata₁]
      exact stretch_length (by omega)
    · rw [BufferHeap.used, hsize, stretch_add, hp.used, hf.used]

theorem addAtEnd (hf : Flat h h' rest b u) (n : ℕ) :
    ∃ h₁ b₁ g, h'.addAtEnd b n = some (h₁, b₁) ∧ g.length = n ∧ Flat h h₁ rest b₁ (u ++ g) := by
  obtain ⟨data, hdata, hcount⟩ := hf.one
  obtain ⟨h₁, b₁, hadd, hx⟩ := addAtEnd_spec hf.sound hdata n
  have hsize : b₁.getInternalSize = b.getInternalSize + n := by
    simp only [getInternalSize, hx.before, hx.behind]
    omega
  have hzeros := hx.zeros
  have hle := (hx.sound.shaped b₁ List.mem_cons_self).zeros
  have hflat := hf.flat
  refine ⟨h₁, b₁, stretch (h₁.bytes b₁.data) (b₁.mStart + b.getInternalSize) n, hadd, ?_, hx.sound,
    hx.sole hcount, by omega, ?_, fun c hc => (used_congr (hx.kept c hc)).trans (hf.kept c hc)⟩
  · obtain ⟨data₁, hdata₁, hroom, _⟩ := hx.sound.held b₁ List.mem_cons_self
    have hend := (hx.sound.shaped b₁ List.mem_cons_self).internalEnd
    rw [bytes_eq hdata₁]
    exact stretch_length (by omega)
  · rw [BufferHeap.used, hsize, stretch_add, hx.used, hf.used]

theorem write (hf : Flat h h' rest b u) (p : ℕ) (new : List UInt8)
    (hp : p + new.length ≤ u.length) :
    ∃ h₁, h'.write b.data (b.mStart + p) new = some h₁ ∧ Flat h h₁ rest b (splice u p new) := by
  obtain ⟨data, hdata, hcount⟩ := hf.one
  obtain ⟨x, hx, hroom, _⟩ := hf.sound.held b List.mem_cons_self
  rw [hdata] at hx
  obtain rfl := Option.some.inj hx
  have hend := (hf.sound.shaped b List.mem_cons_self).internalEnd
  have hlength := hf.length
  have hwrite : b.mStart + p + new.length ≤ data.bytes.length := by omega
  have hself := block_setBlock_self hdata
    (some { data with bytes := splice data.bytes (b.mStart + p) new })
  refine ⟨_, write_eq hdata hwrite, hf.sound.write hdata (splice_length hwrite),
    ⟨_, hself, hcount⟩, hf.flat, ?_, fun c hc => ?_⟩
  · have hused := hf.used
    rw [BufferHeap.used, bytes_eq hdata] at hused
    rw [BufferHeap.used, bytes_eq hself, stretch_splice_inside (by omega) (by omega), hused]
  · rw [used_congr (bytes_setBlock_ne (hf.alone hc) _)]
    exact hf.kept c hc

theorem place (hf : Flat h h' rest b u) : (b.iter p).place = b.mStart + p := by
  have hflat : (b.iter p).zeroEnd - (b.iter p).zeroStart = 0 := by
    show b.zeroAreaEnd - b.zeroAreaStart = 0
    rw [hf.flat, Nat.sub_self]
  unfold BufferIterator.place
  rw [hflat, Nat.sub_zero, ite_self]
  rfl

theorem writeFill (hf : Flat h h' rest b u) (byte : UInt8) (hn : n ≤ u.length) :
    ∃ h₁, h'.writeFill b.first byte n = some h₁ ∧
      Flat h h₁ rest b (splice u 0 (List.replicate n byte)) := by
  have hsize := hf.size
  have hstart := hf.sound.shaped b List.mem_cons_self
  obtain ⟨h₁, hwrite, hf₁⟩ := hf.write 0 (List.replicate n byte)
    (by rw [List.length_replicate]; omega)
  refine ⟨h₁, ?_, hf₁⟩
  have hcheck := checkNoZero_flat hf.flat 0 (b.mStart + 0 + n) (by
    unfold getSize at hsize
    have hle := (hstart.start.trans hstart.zeros).trans hstart.stop
    omega)
  exact (if_pos hcheck).trans (hf.place (p := 0) ▸ hwrite)

/-- The size is checked as if it were an offset, which does no harm. -/
theorem writeArray (hf : Flat h h' rest b u) (p : ℕ) (new : List UInt8)
    (hp : p + new.length ≤ u.length) :
    ∃ h₁, h'.writeArray (b.iter p) new = some h₁ ∧ Flat h h₁ rest b (splice u p new) := by
  have hsize := hf.size
  obtain ⟨h₁, hwrite, hf₁⟩ := hf.write p new hp
  refine ⟨h₁, ?_, hf₁⟩
  have hcheck := checkNoZero_flat hf.flat p new.length (by
    unfold getSize at hsize
    omega)
  exact (if_pos hcheck).trans (hf.place (p := p) ▸ hwrite)

end Flat

theorem initializeWith_spec (hs : Sound h rest) (n : ℕ) :
    ∃ h' b, h.initializeWith n = some (h', b) ∧ Sound h' (b :: rest) ∧
      (∃ data, h'.block b.data = some data ∧ data.count = 1) ∧
      (∀ c ∈ rest, h'.bytes c.data = h.bytes c.data) ∧
      b.mStart = b.zeroAreaStart ∧ b.mEnd = b.zeroAreaEnd ∧
      b.zeroAreaEnd = b.zeroAreaStart + n := by
  obtain ⟨h₁, d, hcreate, hcreated⟩ := create_spec hs 0
  obtain ⟨data, hdata, hcount, hbytes⟩ := hcreated.block
  have hd : h₁.block (empty d).data = some data := hdata
  unfold initializeWith
  rw [hcreate]
  dsimp only [Option.bind_eq_bind, Option.bind_some]
  rw [hdata, Option.bind_some, setDirty, update_eq hdata, Option.bind_some]
  refine ⟨_, _, rfl, ?_, ⟨_, block_setBlock_self hdata _, hcount⟩, fun c hc => ?_, rfl, rfl, rfl⟩
  · refine hcreated.sound.sole hd hcount rfl ⟨le_refl _, Nat.le_add_right _ _, le_refl _⟩ rfl
      (le_refl _) ?_ (le_refl _)
    simp only [getInternalEnd]
    omega
  · have hkept := hcreated.kept c hc
    have hne : c.data ≠ d := hcreated.sound.alone hd hcount hc
    rw [bytes_setBlock_ne hne, bytes, hkept]
    rfl

theorem createFullCopy_flat (hs : Sound h rest) (hb : b ∈ rest)
    (hzeros : b.zeroAreaEnd - b.zeroAreaStart ≠ 0) :
    ∃ h' tmp, h.createFullCopy b = some (h', tmp) ∧ Flat h h' rest tmp (h.content b) := by
  have hused := hs.used_length hb
  have hsize : b.getInternalSize = b.zeroAreaStart - b.mStart + (b.mEnd - b.zeroAreaEnd) := rfl
  obtain ⟨h₁, tmp₁, hinit, hsound₁, hone₁, hbytes₁, hstart₁, hstop₁, hflat₁⟩ :=
    initializeWith_spec hs 0
  have hempty : h₁.used tmp₁ = [] := by
    apply List.eq_nil_of_length_eq_zero
    rw [hsound₁.used_length List.mem_cons_self, getInternalSize]
    omega
  have hf₁ : Flat h h₁ rest tmp₁ [] :=
    ⟨hsound₁, hone₁, by omega, hempty, fun c hc => used_congr (hbytes₁ c hc)⟩
  obtain ⟨h₂, tmp₂, g₂, hadd₂, hg₂, hf₂⟩ := hf₁.addAtStart (b.zeroAreaEnd - b.zeroAreaStart)
  obtain ⟨h₃, hfill, hf₃⟩ := hf₂.writeFill 0 (n := b.zeroAreaEnd - b.zeroAreaStart)
    (by rw [List.append_nil, hg₂])
  have hzero : splice (g₂ ++ []) 0 (List.replicate (b.zeroAreaEnd - b.zeroAreaStart) (0 : UInt8)) =
      List.replicate (b.zeroAreaEnd - b.zeroAreaStart) 0 := by
    simpa only [List.nil_append, List.append_nil, List.length_nil] using
      splice_append [] [] (hg₂.trans List.length_replicate.symm)
  rw [hzero] at hf₃
  obtain ⟨h₄, tmp₄, g₄, hadd₄, hg₄, hf₄⟩ := hf₃.addAtStart (b.zeroAreaStart - b.mStart)
  have hbefore : ((h.used b).take (b.zeroAreaStart - b.mStart)).length =
      b.zeroAreaStart - b.mStart := List.length_take_of_le (by omega)
  have hread₄ := hf₄.sound.read_before (List.mem_cons_of_mem tmp₄ hb) (le_refl _)
  rw [hf₄.kept b hb] at hread₄
  obtain ⟨h₅, harray₅, hf₅⟩ := hf₄.writeArray 0
    ((h.used b).take (b.zeroAreaStart - b.mStart)) (by
      rw [List.length_append, hbefore, hg₄]
      omega)
  have hfront := splice_append [] (List.replicate
    (b.zeroAreaEnd - b.zeroAreaStart) (0 : UInt8)) (hg₄.trans hbefore.symm)
  rw [List.nil_append, List.nil_append, List.length_nil] at hfront
  rw [hfront] at hf₅
  obtain ⟨h₆, tmp₆, g₆, hadd₆, hg₆, hf₆⟩ := hf₅.addAtEnd (b.mEnd - b.zeroAreaEnd)
  have hbehind : ((h.used b).drop (b.zeroAreaStart - b.mStart)).length =
      b.mEnd - b.zeroAreaEnd := by
    rw [List.length_drop]
    omega
  have hprev := last_prev (n := b.mEnd - b.zeroAreaEnd)
    (hf₆.sound.shaped tmp₆ List.mem_cons_self) (by
      rw [hf₆.size, List.length_append, hg₆]
      omega)
  rw [hf₆.size, List.length_append, hg₆, Nat.add_sub_cancel] at hprev
  have hread₆ := hf₆.sound.read_behind (List.mem_cons_of_mem tmp₆ hb) (le_refl _)
  rw [hf₆.kept b hb, List.take_of_length_le hbehind.le] at hread₆
  obtain ⟨h₇, harray₇, hf₇⟩ := hf₆.writeArray _ ((h.used b).drop (b.zeroAreaStart - b.mStart))
    (by rw [List.length_append, hbehind, hg₆])
  have hback := splice_append ((h.used b).take (b.zeroAreaStart - b.mStart) ++
    List.replicate (b.zeroAreaEnd - b.zeroAreaStart) 0) [] (hg₆.trans hbehind.symm)
  rw [List.append_nil, List.append_nil] at hback
  rw [hback] at hf₇
  refine ⟨h₇, tmp₆, ?_, hf₇⟩
  unfold createFullCopy
  dsimp only
  rw [if_pos hzeros, hinit]
  dsimp only [Option.bind_eq_bind, Option.bind_some]
  rw [hadd₂]
  dsimp only [Option.bind_some]
  rw [hfill, Option.bind_some, hadd₄]
  dsimp only [Option.bind_some]
  have hfirst : h₄.writeArray tmp₄.first ((h.used b).take (b.zeroAreaStart - b.mStart)) = some h₅ :=
    harray₅
  rw [hread₄, Option.bind_some, hfirst, Option.bind_some, hadd₆]
  dsimp only [Option.bind_some]
  rw [hprev, Option.bind_some, hread₆, Option.bind_some, harray₇, Option.bind_some]

end BufferHeap
end NetGymSim.Network

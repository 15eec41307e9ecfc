import NetGymSim.Network.BufferSteps

/-!
# Buffers that grow

`AddAtStart` and `AddAtEnd` take the unused bytes around a buffer when no other buffer can be there,
and move to a new block otherwise.
-/

namespace NetGymSim.Network
open NetGymSim.Lib

namespace BufferHeap
open Buffer
variable {h h' : BufferHeap} {b b' c : Buffer} {rest bs : List Buffer}
  {data src : BufferData} {d e n : ℕ}

theorem created_room (h : BufferHeap) (n : ℕ) : n ≤ (h.created n).length := by
  rw [created]
  induction h.freeList with
  | nil =>
    simp only [createdFrom, newBytes, allocOverProvision, List.length_map, List.length_range]
    split_ifs <;> omega
  | cons d rest ih =>
    rw [createdFrom]
    split_ifs with hroom
    · exact hroom
    · exact ih

theorem read_eq (hd : h.block d = some data) {a : ℕ} (hroom : a + n ≤ data.bytes.length) :
    h.read d a n = some (stretch data.bytes a n) := by
  rw [read, hd]
  exact readAt_eq hroom

theorem write_eq (hd : h.block d = some data) {a : ℕ} {new : List UInt8}
    (hroom : a + new.length ≤ data.bytes.length) :
    h.write d a new =
      some (h.setBlock d (some { data with bytes := splice data.bytes a new })) := by
  rw [write, hd, Option.bind_eq_bind, Option.bind_some, writeAt_eq hroom]
  rfl

theorem memcpy_eq (hd : h.block d = some data) (he : h.block e = some src) {a m : ℕ}
    (hread : m + n ≤ src.bytes.length) (hroom : a + n ≤ data.bytes.length) :
    h.memcpy d a e m n = some (h.setBlock d
      (some { data with bytes := splice data.bytes a (stretch src.bytes m n) })) := by
  rw [memcpy, read_eq he hread]
  exact write_eq hd (by rw [stretch_length hread]; exact hroom)

structure Placed (h h' : BufferHeap) (rest : List Buffer) (b : Buffer) (bytes : List UInt8) :
    Prop where
  sound : Sound h' (b :: rest)
  block : ∃ data, h'.block b.data = some data ∧ data.count = 1 ∧ data.bytes = bytes
  kept : ∀ c ∈ rest, h'.bytes c.data = h.bytes c.data

theorem Placed.alone {bytes : List UInt8} (hp : Placed h h' rest b bytes) (hc : c ∈ rest) :
    c.data ≠ b.data := by
  obtain ⟨data, hdata, hcount, _⟩ := hp.block
  exact hp.sound.alone hdata hcount hc

theorem Placed.bytes {bytes : List UInt8} (hp : Placed h h' rest b bytes) :
    h'.bytes b.data = bytes := by
  obtain ⟨data, hdata, _, hbytes⟩ := hp.block
  rw [bytes_eq hdata, hbytes]

theorem Sound.reallocate (hs : Sound h (b :: rest)) {size a : ℕ}
    (hroom : a + b.getInternalSize ≤ size) (next : ℕ → Buffer) (hnext : ∀ d, (next d).data = d)
    (hshaped : ∀ d, (next d).Shaped) (hend : ∀ d, (next d).getInternalEnd ≤ size) :
    ∃ h₁ d h₂ h₃ h₄, h.create size = some (h₁, d) ∧
      h₁.memcpy d a b.data b.mStart b.getInternalSize = some h₂ ∧
      h₂.release b.data = some h₃ ∧
      h₃.setDirty d (next d).mStart (next d).mEnd = some h₄ ∧
      Placed h h₄ rest (next d) (splice (h.created size) a (h.used b)) := by
  obtain ⟨src, hsrc, hfits, hdirty⟩ := hs.held b List.mem_cons_self
  obtain ⟨h₁, d, hcreate, hcreated⟩ := create_spec hs size
  obtain ⟨data, hdata, hcount, hbytes⟩ := hcreated.block
  have hne : b.data ≠ d := hcreated.sound.alone hdata hcount List.mem_cons_self
  have hsrc₁ : h₁.block b.data = some src := (hcreated.kept b List.mem_cons_self).trans hsrc
  have hused : h.used b = stretch src.bytes b.mStart b.getInternalSize := by
    rw [used, bytes_eq hsrc]
  have hshape := (hs.shaped b List.mem_cons_self).internalEnd
  have hlength : (h.used b).length = b.getInternalSize := hs.used_length List.mem_cons_self
  have hsize : a + (h.used b).length ≤ data.bytes.length := by
    rw [hlength, hbytes]
    exact hroom.trans (created_room h size)
  have hmemcpy := memcpy_eq hdata hsrc₁ (a := a) (m := b.mStart) (n := b.getInternalSize)
    (by omega) (hlength ▸ hsize)
  rw [← hused] at hmemcpy
  have hsplice : (splice data.bytes a (h.used b)).length = data.bytes.length := splice_length hsize
  have hsound₂ := (hcreated.sound.write hdata hsplice).perm (List.Perm.swap b (empty d) rest)
  have hself := block_setBlock_self hdata
    (some { data with bytes := splice data.bytes a (h.used b) })
  obtain ⟨h₃, hrelease, hreleased⟩ := release_spec hsound₂
  have hdata₃ := (hreleased.other d hne.symm).trans hself
  have halone : ∀ c ∈ rest, c.data ≠ d := fun c hc => hcreated.sound.alone hdata hcount
    (List.mem_cons_of_mem b hc)
  refine ⟨h₁, d, _, h₃, _, hcreate, hmemcpy, hrelease, update_eq hdata₃ _, ?_, ?_, fun c hc => ?_⟩
  · refine hreleased.sound.sole hdata₃ hcount (hnext d) (hshaped d) rfl (le_refl _) ?_ (le_refl _)
    refine (hend d).trans ?_
    show size ≤ (splice data.bytes a (h.used b)).length
    rw [hsplice, hbytes]
    exact created_room h size
  · rw [hnext d]
    exact ⟨_, block_setBlock_self hdata₃ _, hcount, by rw [hbytes]⟩
  · have hkept := hcreated.kept c (List.mem_cons_of_mem b hc)
    have hbytes₁ : h₁.bytes c.data = h.bytes c.data := by
      rw [bytes, hkept]
      rfl
    rw [bytes_setBlock_ne (halone c hc), hreleased.bytes c (List.mem_cons_of_mem _ hc)]
    exact (bytes_setBlock_ne (halone c hc) _).trans hbytes₁

def InPlace (data : BufferData) (b : Buffer) (n : ℕ) : Prop :=
  b.getInternalEnd + n ≤ data.bytes.length ∧ ¬(1 < data.count ∧ b.mEnd < data.dirtyEnd)

instance (data : BufferData) (b : Buffer) (n : ℕ) : Decidable (InPlace data b n) :=
  inferInstanceAs (Decidable (_ ∧ _))

def space (h : BufferHeap) (data : BufferData) (b : Buffer) (n : ℕ) : List UInt8 :=
  if InPlace data b n then data.bytes.drop b.getInternalEnd
  else (h.created (b.getInternalSize + n)).drop b.getInternalSize

structure Extended (h h' : BufferHeap) (rest : List Buffer) (data : BufferData) (b b' : Buffer)
    (n : ℕ) : Prop where
  sound : Sound h' (b' :: rest)
  kept : ∀ c ∈ rest, h'.bytes c.data = h.bytes c.data
  before : b'.zeroAreaStart - b'.mStart = b.zeroAreaStart - b.mStart
  zeros : b'.zeroAreaEnd - b'.zeroAreaStart = b.zeroAreaEnd - b.zeroAreaStart
  behind : b'.mEnd - b'.zeroAreaEnd = b.mEnd - b.zeroAreaEnd + n
  used : stretch (h'.bytes b'.data) b'.mStart b.getInternalSize = h.used b
  space : (h'.bytes b'.data).drop (b'.getInternalEnd - n) = h.space data b n
  alone : ∀ c ∈ rest, c.data = b'.data → c.getInternalEnd + n ≤ b'.getInternalEnd
  inPlace : InPlace data b n → b'.data = b.data
  moved : ¬InPlace data b n → ∀ c ∈ rest, c.data ≠ b'.data
  sole : data.count = 1 → ∃ data', h'.block b'.data = some data' ∧ data'.count = 1

theorem addAtEnd_inPlace (hs : Sound h (b :: rest)) (hdata : h.block b.data = some data)
    (hplace : InPlace data b n) :
    ∃ h' b', h.addAtEnd b n = some (h', b') ∧ Extended h h' rest data b b' n := by
  obtain ⟨x, hx, hfits, hdirty⟩ := hs.held b List.mem_cons_self
  rw [hdata] at hx
  obtain rfl := Option.some.inj hx
  have hshaped := hs.shaped b List.mem_cons_self
  have hpos := hs.count_pos List.mem_cons_self hdata
  obtain ⟨hroom, hclean⟩ := hplace
  -- on a shared block the buffer ends where the dirty area does
  have hother : ∀ c ∈ rest, c.data = b.data →
      b.mEnd = data.dirtyEnd ∧ c.mEnd ≤ b.mEnd ∧ c.getInternalEnd ≤ b.getInternalEnd := by
    intro c hc hcb
    have hcount : data.count ≠ 1 := fun hone => hs.alone hdata hone hc hcb
    have hmem := List.mem_cons_of_mem b hc
    obtain ⟨y, hy, _, hin⟩ := hs.held c hmem
    rw [hcb, hdata] at hy
    obtain rfl := Option.some.inj hy
    have hend : b.mEnd = data.dirtyEnd := by omega
    exact ⟨hend, hend ▸ hin, hs.front b List.mem_cons_self data hdata hend c hmem hcb⟩
  have hzeros := hshaped.zeros
  have hstop := hshaped.stop
  have hgrown : ({ b with mEnd := b.mEnd + n } : Buffer).getInternalEnd = b.getInternalEnd + n := by
    simp only [getInternalEnd]
    omega
  have hbytes : ∀ e, (h.setBlock b.data (some { data with dirtyEnd := b.mEnd + n })).bytes e =
      h.bytes e := bytes_setBlock hdata rfl
  refine ⟨h.setBlock b.data (some { data with dirtyEnd := b.mEnd + n }),
    raiseMax { b with mEnd := b.mEnd + n }, ?_, ?_, fun c hc => ?_, rfl, rfl, ?_, ?_, ?_,
    ?_, fun _ => rfl, fun hnot => absurd ⟨hroom, hclean⟩ hnot, fun hone => ?_⟩
  · rw [addAtEnd, hdata]
    dsimp only [Option.bind_eq_bind, Option.bind_some]
    rw [if_pos ⟨hroom, hclean⟩, if_pos (by omega), setDirty, update_eq hdata]
    rfl
  · refine hs.put hdata rfl ⟨hshaped.start, hzeros, hstop.trans (Nat.le_add_right _ n)⟩ rfl
      (le_refl _) (hgrown.trans_le hroom) (le_refl _) fun c hc hcb => ?_
    obtain ⟨hend, hle, hinternal⟩ := hother c hc hcb
    refine ⟨hle.trans (Nat.le_add_right _ n),
      fun _ => hinternal.trans ((Nat.le_add_right _ n).trans hgrown.ge), fun heq => ?_⟩
    have heq : c.mEnd = b.mEnd + n := heq
    have hcend : c.mEnd = data.dirtyEnd := by omega
    have hfront := hs.front c (List.mem_cons_of_mem b hc) data (hcb ▸ hdata) hcend b
      List.mem_cons_self hcb.symm
    exact ⟨hgrown.trans_le (by omega), hcend⟩
  · exact hbytes c.data
  · show b.mEnd + n - b.zeroAreaEnd = b.mEnd - b.zeroAreaEnd + n
    omega
  · show stretch (bytes _ b.data) b.mStart b.getInternalSize = h.used b
    rw [hbytes]
    rfl
  · show (bytes _ b.data).drop (({ b with mEnd := b.mEnd + n } : Buffer).getInternalEnd - n) =
      h.space data b n
    rw [hbytes, bytes_eq hdata, hgrown, Nat.add_sub_cancel, BufferHeap.space,
      if_pos ⟨hroom, hclean⟩]
  · intro c hc hcb
    exact (Nat.add_le_add_right (hother c hc hcb).2.2 n).trans hgrown.ge
  · exact ⟨_, block_setBlock_self hdata _, hone⟩

theorem addAtEnd_moved (hs : Sound h (b :: rest)) (hdata : h.block b.data = some data)
    (hplace : ¬InPlace data b n) :
    ∃ h' b', h.addAtEnd b n = some (h', b') ∧ Extended h h' rest data b b' n := by
  have hshaped := hs.shaped b List.mem_cons_self
  obtain ⟨hstart, hzeros, hstop⟩ := hshaped
  have hlength : (h.used b).length = b.getInternalSize := hs.used_length List.mem_cons_self
  have hsize : 0 + (h.used b).length ≤ (h.created (b.getInternalSize + n)).length := by
    rw [hlength, Nat.zero_add]
    exact (Nat.le_add_right _ n).trans (created_room h _)
  obtain ⟨h₁, d, h₂, h₃, h₄, hcreate, hmemcpy, hrelease, hset, hplaced⟩ :=
    hs.reallocate (show 0 + b.getInternalSize ≤ b.getInternalSize + n by omega)
      (fun d => raiseMax { b with
        data := d, mStart := 0, zeroAreaStart := b.zeroAreaStart - b.mStart
        zeroAreaEnd := b.zeroAreaEnd - b.mStart, mEnd := b.mEnd - b.mStart + n })
      (fun _ => rfl)
      (fun _ => ⟨Nat.zero_le _, Nat.sub_le_sub_right hzeros _, by
        simp only [raiseMax]
        omega⟩)
      (fun _ => by
        simp only [raiseMax, getInternalEnd, getInternalSize]
        omega)
  have hguard : ¬(b.getInternalEnd + n ≤ data.bytes.length ∧
      ¬(1 < data.count ∧ b.mEnd < data.dirtyEnd)) := hplace
  refine ⟨h₄, _, ?_, hplaced.sound, hplaced.kept, ?_, ?_, ?_, ?_, ?_, ?_,
    fun hin => absurd hin hplace, fun _ c hc => hplaced.alone hc, fun _ => ?_⟩
  · rw [addAtEnd, hdata]
    dsimp only [Option.bind_eq_bind, Option.bind_some]
    rw [if_neg hguard, hcreate, Option.bind_some]
    dsimp only
    rw [hmemcpy, Option.bind_some, hrelease, Option.bind_some]
    exact congrArg (Option.bind · _) hset
  · rfl
  · simp only [raiseMax]
    omega
  · simp only [raiseMax]
    omega
  · have hself := stretch_splice_self hsize
    rw [hlength] at hself
    rw [hplaced.bytes]
    exact hself
  · have hdrop := drop_splice hsize
    rw [hlength, Nat.zero_add] at hdrop
    rw [hplaced.bytes, BufferHeap.space, if_neg hplace, ← hdrop]
    congr 1
    simp only [raiseMax, getInternalEnd, getInternalSize]
    omega
  · intro c hc heq
    exact absurd heq (hplaced.alone hc)
  · obtain ⟨x, hx, hcount, _⟩ := hplaced.block
    exact ⟨x, hx, hcount⟩

theorem addAtEnd_spec (hs : Sound h (b :: rest)) (hdata : h.block b.data = some data) (n : ℕ) :
    ∃ h' b', h.addAtEnd b n = some (h', b') ∧ Extended h h' rest data b b' n := by
  by_cases hplace : InPlace data b n
  · exact addAtEnd_inPlace hs hdata hplace
  · exact addAtEnd_moved hs hdata hplace

structure Prepended (h h' : BufferHeap) (rest : List Buffer) (data : BufferData) (b b' : Buffer)
    (n : ℕ) : Prop where
  sound : Sound h' (b' :: rest)
  kept : ∀ c ∈ rest, h'.bytes c.data = h.bytes c.data
  before : b'.zeroAreaStart - b'.mStart = b.zeroAreaStart - b.mStart + n
  zeros : b'.zeroAreaEnd - b'.zeroAreaStart = b.zeroAreaEnd - b.zeroAreaStart
  behind : b'.mEnd - b'.zeroAreaEnd = b.mEnd - b.zeroAreaEnd
  used : stretch (h'.bytes b'.data) (b'.mStart + n) b.getInternalSize = h.used b
  sole : data.count = 1 → ∃ data', h'.block b'.data = some data' ∧ data'.count = 1

theorem addAtStart_inPlace (hs : Sound h (b :: rest)) (hdata : h.block b.data = some data)
    (hplace : n ≤ b.mStart ∧ ¬(1 < data.count ∧ data.dirtyStart < b.mStart))
    (hassert : data.count = 1 ∨ b.mStart = data.dirtyStart) :
    ∃ h' b', h.addAtStart b n = some (h', b') ∧ Prepended h h' rest data b b' n := by
  have hshaped := hs.shaped b List.mem_cons_self
  have hstart := hshaped.start
  have hbytes : ∀ e, (h.setBlock b.data (some { data with dirtyStart := b.mStart - n })).bytes e =
      h.bytes e := bytes_setBlock hdata rfl
  refine ⟨h.setBlock b.data (some { data with dirtyStart := b.mStart - n }),
    raiseMax { b with mStart := b.mStart - n }, ?_, ?_, fun c _ => hbytes c.data, ?_, rfl, rfl, ?_,
    fun hone => ⟨_, block_setBlock_self hdata _, hone⟩⟩
  · rw [addAtStart, hdata]
    dsimp only [Option.bind_eq_bind, Option.bind_some]
    rw [if_pos hplace, if_pos hassert, setDirty, update_eq hdata]
    rfl
  · exact hs.refit hdata rfl ⟨(Nat.sub_le _ n).trans hstart, hshaped.zeros, hshaped.stop⟩ rfl rfl
      rfl rfl rfl
  · simp only [raiseMax]
    omega
  · show stretch (bytes _ b.data) (b.mStart - n + n) b.getInternalSize = h.used b
    rw [hbytes, Nat.sub_add_cancel hplace.1]
    rfl

theorem addAtStart_moved (hs : Sound h (b :: rest)) (hdata : h.block b.data = some data)
    (hplace : ¬(n ≤ b.mStart ∧ ¬(1 < data.count ∧ data.dirtyStart < b.mStart))) :
    ∃ h' b', h.addAtStart b n = some (h', b') ∧ Prepended h h' rest data b b' n := by
  obtain ⟨hstart, hzeros, hstop⟩ := hs.shaped b List.mem_cons_self
  have hlength : (h.used b).length = b.getInternalSize := hs.used_length List.mem_cons_self
  have hsize : n + (h.used b).length ≤ (h.created (b.getInternalSize + n)).length := by
    rw [hlength, Nat.add_comm]
    exact created_room h _
  obtain ⟨h₁, d, h₂, h₃, h₄, hcreate, hmemcpy, hrelease, hset, hplaced⟩ :=
    hs.reallocate (show n + b.getInternalSize ≤ b.getInternalSize + n by omega)
      (fun d => raiseMax { b with
        data := d, mStart := 0, zeroAreaStart := b.zeroAreaStart - b.mStart + n
        zeroAreaEnd := b.zeroAreaEnd - b.mStart + n, mEnd := b.mEnd - b.mStart + n })
      (fun _ => rfl)
      (fun _ => ⟨Nat.zero_le _, Nat.add_le_add_right (Nat.sub_le_sub_right hzeros _) n,
        Nat.add_le_add_right (Nat.sub_le_sub_right hstop _) n⟩)
      (fun _ => by
        simp only [raiseMax, getInternalEnd, getInternalSize]
        omega)
  refine ⟨h₄, _, ?_, hplaced.sound, hplaced.kept, ?_, ?_, ?_, ?_, fun _ => ?_⟩
  · rw [addAtStart, hdata]
    dsimp only [Option.bind_eq_bind, Option.bind_some]
    rw [if_neg hplace, hcreate, Option.bind_some]
    dsimp only
    rw [hmemcpy, Option.bind_some, hrelease, Option.bind_some]
    exact congrArg (Option.bind · _) hset
  · rfl
  · simp only [raiseMax]
    omega
  · simp only [raiseMax]
    omega
  · have hself := stretch_splice_self hsize
    rw [hlength] at hself
    rw [hplaced.bytes]
    simpa only [raiseMax, Nat.zero_add] using hself
  · obtain ⟨x, hx, hcount, _⟩ := hplaced.block
    exact ⟨x, hx, hcount⟩

/-- The assertion of `AddAtStart` can fail only when the block is shared. -/
theorem addAtStart_spec (hs : Sound h (b :: rest)) (hdata : h.block b.data = some data) (n : ℕ) :
    (h.addAtStart b n = none ∧ 1 < data.count) ∨
      ∃ h' b', h.addAtStart b n = some (h', b') ∧ Prepended h h' rest data b b' n := by
  by_cases hplace : n ≤ b.mStart ∧ ¬(1 < data.count ∧ data.dirtyStart < b.mStart)
  · by_cases hassert : data.count = 1 ∨ b.mStart = data.dirtyStart
    · exact .inr (addAtStart_inPlace hs hdata hplace hassert)
    · have hpos := hs.count_pos List.mem_cons_self hdata
      refine .inl ⟨?_, by omega⟩
      rw [addAtStart, hdata]
      dsimp only [Option.bind_eq_bind, Option.bind_some]
      rw [if_pos hplace, if_neg hassert]
  · exact .inr (addAtStart_moved hs hdata hplace)

end BufferHeap
end NetGymSim.Network

import NetGymSim.Network.BufferSound

/-!
# What the operations of a buffer do

Blocks are created and released around the buffers that stay. A buffer that grows keeps its bytes,
in its block or in a new one, and has the bytes it gains for itself.
-/

namespace NetGymSim.Network
open NetGymSim.Lib

namespace BufferHeap
open Buffer
variable {h h' : BufferHeap} {b b' c : Buffer} {rest bs : List Buffer}
  {data data' : BufferData} {d e n : ℕ}

theorem used_congr (hbytes : h'.bytes c.data = h.bytes c.data) : h'.used c = h.used c := by
  rw [used, used, hbytes]

theorem Sound.used_length (hs : Sound h bs) (hb : b ∈ bs) :
    (h.used b).length = b.getInternalSize := by
  obtain ⟨data, hdata, hroom, _⟩ := hs.held b hb
  have hend := (hs.shaped b hb).internalEnd
  rw [used, bytes_eq hdata]
  exact stretch_length (by omega)

structure Released (h h' : BufferHeap) (rest : List Buffer) (d : ℕ) : Prop where
  sound : Sound h' rest
  bytes : ∀ c ∈ rest, h'.bytes c.data = h.bytes c.data
  other : ∀ e, e ≠ d → h'.block e = h.block e

theorem Sound.unset (hs : Sound h rest) (hdata : h.block d = some data) (hfree : d ∉ h.freeList)
    (hrest : ∀ c ∈ rest, c.data ≠ d) : Sound (h.setBlock d none) rest := by
  refine hs.transfer (fun c hc x hx => ?_) (fun e x hx => ?_) (fun e he => ?_) hs.nodup
  · exact ⟨x, (block_setBlock_ne (hrest c hc) none).trans hx, rfl, rfl⟩
  · by_cases hed : e = d
    · rw [hed, block_setBlock_self hdata] at hx
      cases hx
    · exact hs.counts e x ((block_setBlock_ne hed none).symm.trans hx)
  · have hne : e ≠ d := fun heq => hfree (heq ▸ he)
    rw [block_setBlock_ne hne]
    exact hs.free e he

theorem deallocate_eq (hdata : h.block d = some data) (hcount : data.count = 0) :
    h.deallocate d = some (h.setBlock d none) := by
  rw [deallocate, hdata]
  exact if_pos hcount

theorem recycle_spec (hs : Sound h rest) (hdata : h.block d = some data)
    (hcount : data.count = 0) (hfree : d ∉ h.freeList) (hrest : ∀ c ∈ rest, c.data ≠ d) :
    ∃ h', h.recycle d = some h' ∧ Released h h' rest d := by
  unfold recycle
  rw [hdata]
  dsimp only [Option.bind_eq_bind, Option.bind_some]
  rw [if_neg (not_not.mpr hcount)]
  split_ifs with hfull
  · have hblock : block { h with maxSize := max h.maxSize data.bytes.length } d = some data := hdata
    have hsound : Sound { h with maxSize := max h.maxSize data.bytes.length } rest :=
      hs.congr (fun _ => rfl) rfl
    exact ⟨_, deallocate_eq hblock hcount, hsound.unset hblock hfree hrest,
      fun c hc => bytes_setBlock_ne (hrest c hc) none, fun e he => block_setBlock_ne he none⟩
  · refine ⟨_, rfl, ?_, fun c hc => rfl, fun e he => rfl⟩
    refine hs.transfer (fun c hc x hx => ⟨x, hx, rfl, rfl⟩) hs.counts (fun e he => ?_)
      (List.nodup_cons.mpr ⟨hfree, hs.nodup⟩)
    cases List.mem_cons.mp he with
    | inl heq => exact ⟨data, heq ▸ hdata, hcount⟩
    | inr hmem => exact hs.free e hmem

theorem release_spec (hs : Sound h (b :: rest)) :
    ∃ h', h.release b.data = some h' ∧ Released h h' rest b.data := by
  obtain ⟨data, hdata, _⟩ := hs.held b List.mem_cons_self
  have hpos := hs.count_pos List.mem_cons_self hdata
  have hself := block_setBlock_self hdata (some { data with count := data.count - 1 })
  have hcounts : ∀ e x, (h.setBlock b.data (some { data with count := data.count - 1 })).block e =
      some x → refs rest e ≤ x.count := by
    intro e x hx
    by_cases he : e = b.data
    · have hrefs := hs.counts b.data data hdata
      rw [he, hself] at hx
      rw [refs_cons, if_pos rfl] at hrefs
      rw [← Option.some.inj hx, he]
      exact Nat.le_sub_of_add_le hrefs
    · exact hs.tail.counts e x ((block_setBlock_ne he _).symm.trans hx)
  have hbytes : ∀ e, (h.setBlock b.data (some { data with count := data.count - 1 })).bytes e =
      h.bytes e := bytes_setBlock hdata rfl
  have hsound : Sound (h.setBlock b.data (some { data with count := data.count - 1 })) rest := by
    refine hs.tail.transfer (fun c hc x hx => ?_) hcounts (fun e he => ?_) hs.nodup
    · by_cases hcb : c.data = b.data
      · rw [hcb, hdata] at hx
        obtain rfl := Option.some.inj hx
        rw [hcb]
        exact ⟨_, hself, rfl, rfl⟩
      · exact ⟨x, (block_setBlock_ne hcb _).trans hx, rfl, rfl⟩
    · have hne : e ≠ b.data := fun heq => hs.not_free List.mem_cons_self (heq ▸ he)
      rw [block_setBlock_ne hne]
      exact hs.free e he
  unfold release
  rw [hdata]
  dsimp only [Option.bind_eq_bind, Option.bind_some]
  by_cases hlast : data.count - 1 = 0
  · rw [if_pos hlast]
    obtain ⟨h', hh', hrel⟩ := recycle_spec hsound hself hlast (hs.not_free List.mem_cons_self)
      fun c hc => hs.alone hdata (by omega) hc
    exact ⟨h', hh', hrel.sound, fun c hc => (hrel.bytes c hc).trans (hbytes _),
      fun e he => (hrel.other e he).trans (block_setBlock_ne he _)⟩
  · rw [if_neg hlast]
    exact ⟨_, rfl, hsound, fun c _ => hbytes _, fun e he => block_setBlock_ne he _⟩

def createdFrom (h : BufferHeap) (dataSize : ℕ) : List ℕ → List UInt8
  | [] => h.newBytes dataSize
  | d :: rest => if dataSize ≤ (h.bytes d).length then h.bytes d else createdFrom h dataSize rest

def created (h : BufferHeap) (dataSize : ℕ) : List UInt8 := h.createdFrom dataSize h.freeList

theorem createdFrom_congr (hlength : h'.blocks.length = h.blocks.length)
    (hunused : h'.unused = h.unused) (n : ℕ) {l : List ℕ}
    (hl : ∀ d ∈ l, h'.bytes d = h.bytes d) : h'.createdFrom n l = h.createdFrom n l := by
  induction l with
  | nil => simp only [createdFrom, newBytes, hlength, hunused]
  | cons d rest ih =>
    rw [createdFrom, createdFrom, hl d List.mem_cons_self,
      ih fun e he => hl e (List.mem_cons_of_mem d he)]

structure Created (h h' : BufferHeap) (bs : List Buffer) (bytes : List UInt8) (d : ℕ) :
    Prop where
  sound : Sound h' (empty d :: bs)
  block : ∃ data, h'.block d = some data ∧ data.count = 1 ∧ data.bytes = bytes
  kept : ∀ c ∈ bs, h'.block c.data = h.block c.data

theorem Sound.add (hs : Sound h bs) (hdata : h.block d = some data) (hcount : data.count = 1)
    (hnew : ∀ c ∈ bs, c.data ≠ d) : Sound h (empty d :: bs) := by
  have hrefs : refs bs d = 0 := List.countP_eq_zero.mpr fun c hc => by simpa using hnew c hc
  refine ⟨fun c hc => ?_, fun c hc => ?_, fun c hc x hx hend c' hc' hsame => ?_,
    fun e x hx => ?_, hs.free, hs.nodup⟩
  · cases List.mem_cons.mp hc with
    | inl heq => exact heq ▸ ⟨le_refl 0, le_refl 0, le_refl 0⟩
    | inr hmem => exact hs.shaped c hmem
  · cases List.mem_cons.mp hc with
    | inl heq => exact ⟨data, heq ▸ hdata, heq ▸ Nat.zero_le _, heq ▸ Nat.zero_le _⟩
    | inr hmem => exact hs.held c hmem
  · cases List.mem_cons.mp hc with
    | inl heq =>
      cases List.mem_cons.mp hc' with
      | inl heq' => rw [heq, heq']
      | inr hmem' => exact absurd (hsame.trans (congrArg Buffer.data heq)) (hnew c' hmem')
    | inr hmem =>
      cases List.mem_cons.mp hc' with
      | inl heq' => exact heq' ▸ Nat.zero_le _
      | inr hmem' => exact hs.front c hmem x hx hend c' hmem' hsame
  · rw [refs_cons]
    by_cases he : (empty d).data = e
    · have hde : d = e := he
      rw [← hde, hdata] at hx
      rw [if_pos he, ← hde, hrefs, ← Option.some.inj hx, hcount]
    · rw [if_neg he]
      exact hs.counts e x hx

theorem allocate_spec (hs : Sound h bs) (hfree : h.freeList = []) (n : ℕ) :
    Created h (h.allocate n).1 bs (h.newBytes n) (h.allocate n).2 := by
  have hold : ∀ e < h.blocks.length, (h.allocate n).1.block e = h.block e := by
    intro e he
    rw [block, allocate, List.getElem?_append_left he]
    rfl
  have hlt : ∀ c ∈ bs, c.data < h.blocks.length := by
    intro c hc
    obtain ⟨x, hx, _⟩ := hs.held c hc
    exact block_lt hx
  have hnew : (h.allocate n).1.block h.blocks.length = some ⟨1, 0, 0, h.newBytes n⟩ := by
    rw [block, allocate, List.getElem?_append_right (le_refl _), Nat.sub_self]
    rfl
  have hkept : ∀ c ∈ bs, (h.allocate n).1.block c.data = h.block c.data :=
    fun c hc => hold c.data (hlt c hc)
  have hsound : Sound (h.allocate n).1 bs := by
    refine hs.transfer (fun c hc x hx => ⟨x, (hkept c hc).trans hx, rfl, rfl⟩) (fun e x hx => ?_)
      (fun e he => ?_) hs.nodup
    · by_cases he : e < h.blocks.length
      · exact hs.counts e x ((hold e he).symm.trans hx)
      · have hrefs : refs bs e = 0 := List.countP_eq_zero.mpr fun c hc => by
          have hc := hlt c hc
          simp only [decide_eq_true_eq]
          omega
        exact hrefs ▸ Nat.zero_le _
    · have hnil : e ∈ h.freeList := he
      rw [hfree] at hnil
      cases hnil
  exact ⟨hsound.add hnew rfl fun c hc => (hlt c hc).ne, ⟨_, hnew, rfl, rfl⟩, hkept⟩

/-- Blocks that are too small are deallocated until there is one, or a new one is made. -/
theorem createFrom_spec (n : ℕ) {l : List ℕ} :
    ∀ {h : BufferHeap}, Sound { h with freeList := l } bs →
      ∃ h' d, createFrom n h l = some (h', d) ∧ Created h h' bs (h.createdFrom n l) d := by
  induction l with
  | nil =>
    intro h hs
    have hcreated := allocate_spec hs rfl n
    exact ⟨_, _, rfl, hcreated.sound, hcreated.block, hcreated.kept⟩
  | cons d rest ih =>
    intro h hs
    obtain ⟨data, hdata, hzero⟩ := hs.free d List.mem_cons_self
    have hblock : h.block d = some data := hdata
    have hnodup := List.nodup_cons.mp hs.nodup
    have hrest : ∀ c ∈ bs, c.data ≠ d := fun c hc heq =>
      hs.not_free hc (heq ▸ List.mem_cons_self)
    have hpopped : Sound { h with freeList := rest } bs :=
      hs.transfer (fun c hc x hx => ⟨x, hx, rfl, rfl⟩) hs.counts
        (fun e he => hs.free e (List.mem_cons_of_mem d he)) hnodup.2
    rw [createFrom, hblock, createdFrom, bytes_eq hblock]
    dsimp only [Option.bind_eq_bind, Option.bind_some]
    by_cases hroom : n ≤ data.bytes.length
    · rw [if_pos hroom, if_pos hroom]
      have hkept : ∀ e, e ≠ d → block (setBlock { h with freeList := rest } d
          (some { data with count := 1 })) e = h.block e := fun e he => block_setBlock_ne he _
      have hself := block_setBlock_self (h := { h with freeList := rest }) hdata
        (some { data with count := 1 })
      refine ⟨_, d, rfl, ?_, ⟨_, hself, rfl, rfl⟩, fun c hc => hkept c.data (hrest c hc)⟩
      refine Sound.add ?_ hself rfl hrest
      refine hpopped.transfer
        (fun c hc x hx => ⟨x, (hkept c.data (hrest c hc)).trans hx, rfl, rfl⟩)
        (fun e x hx => ?_) (fun e he => ?_) hnodup.2
      · by_cases hed : e = d
        · have hrefs : refs bs d = 0 := List.countP_eq_zero.mpr fun c hc => by
            simpa using hrest c hc
          exact hed ▸ hrefs ▸ Nat.zero_le _
        · exact hs.counts e x ((hkept e hed).symm.trans hx)
      · have hne : e ≠ d := fun heq => hnodup.1 (heq ▸ he)
        rw [hkept e hne]
        exact hpopped.free e he
    · rw [if_neg hroom, if_neg hroom, deallocate_eq hblock hzero, Option.bind_some]
      have hsound : Sound { h.setBlock d none with freeList := rest } bs :=
        hpopped.unset hdata hnodup.1 hrest
      obtain ⟨h', e, hh', hcreated⟩ := ih hsound
      refine ⟨h', e, hh', hcreated.sound, ?_,
        fun c hc => (hcreated.kept c hc).trans (block_setBlock_ne (hrest c hc) none)⟩
      have hcongr : (h.setBlock d none).createdFrom n rest = h.createdFrom n rest := by
        apply createdFrom_congr
        · exact List.length_set
        · rfl
        · exact fun f hf => bytes_setBlock_ne (fun heq : f = d => hnodup.1 (heq ▸ hf)) none
      rw [← hcongr]
      exact hcreated.block

theorem create_spec (hs : Sound h bs) (n : ℕ) :
    ∃ h' d, h.create n = some (h', d) ∧ Created h h' bs (h.created n) d :=
  createFrom_spec n hs

end BufferHeap
end NetGymSim.Network

import NetGymSim.Network.PacketSerialize

/-!
# What `Packet::Serialize` writes within its bound

Each section fits the room it is given and has a known last byte, so what is written beyond the
bound follows from the sizes of the sections alone.
-/

namespace NetGymSim.Network
open NetGymSim.Lib

theorem length_word (v : ℕ) : (word v).length = 4 := rfl

theorem word_ne_nil (v : ℕ) : word v ≠ [] := List.cons_ne_nil _ _

theorem le_roundUp (n : ℕ) : n ≤ roundUp n := by
  unfold roundUp
  omega

def Fills (n reach : ℕ) (serialize : ℕ → Sink → Except Sink Sink) : Prop :=
  ∀ s : Sink, s.top ≤ s.p → s.size = 0 →
    ∃ s', serialize n s = .ok s' ∧ s'.top = s.p + reach

theorem serializeSection_writes {maxSize n reach : ℕ} {serialize : ℕ → Sink → Except Sink Sink}
    (h : Fills n reach serialize) :
    Writes maxSize ⟨n, 4 + reach, 4 + roundUp n⟩ (serializeSection maxSize n serialize) := by
  intro s htop
  dsimp only [serializeSection]
  split_ifs with hroom
  · have hprefix : (s.writeAt s.p (word (n + 4))).top ≤ s.p + 4 := by
      rw [Sink.top_writeAt, if_neg (word_ne_nil _), length_word]
      omega
    obtain ⟨s', hs', htop'⟩ :=
      h { s.writeAt s.p (word (n + 4)) with p := s.p + 4, size := 0 } hprefix rfl
    rw [hs']
    refine ⟨_, rfl, rfl, ?_, ?_⟩
    · exact Nat.add_assoc _ _ _
    · show s'.top = _
      rw [htop']
      exact Nat.add_assoc _ _ _
  · rfl

/-! ### The nix-vector -/

theorem length_flatMap_word (l : List ℕ) : (l.flatMap word).length = 4 * l.length := by
  induction l with
  | nil => rfl
  | cons v l ih =>
    rw [List.flatMap_cons, List.length_append, length_word, ih, List.length_cons]
    omega

theorem NixVector.serialize_fills (n : NixVector) :
    Fills n.getSerializedSize n.getSerializedSize n.serialize := by
  intro s htop _
  have hlen : (n.words.flatMap word).length = n.getSerializedSize := by
    rw [length_flatMap_word, words, getSerializedSize, List.length_cons]
    split_ifs
    · rfl
    · simp only [List.cons_append, List.length_cons, List.length_append, List.length_nil]
      omega
  have hne : n.words.flatMap word ≠ [] := by
    rw [words, List.flatMap_cons]
    exact List.append_ne_nil_of_left_ne_nil (word_ne_nil _) _
  refine ⟨_, if_neg (Nat.lt_irrefl _), ?_⟩
  rw [Sink.top_writeAt, if_neg hne, hlen]
  omega

/-! ### Tags -/

def RawTag.span (t : RawTag) : ℕ := 4 * t.words.length + roundUp t.data.length

def RawTag.padding (t : RawTag) : ℕ := roundUp t.data.length - t.data.length

def lastPadding (tags : List RawTag) : ℕ := tags.foldl (fun _ t => t.padding) 0

section Puts
variable {maxSize span reach : ℕ} {s s' : Sink}

theorem putWords_filled (words : List ℕ) (h : Sink.Filled s s' span span)
    (hroom : s.size + span + 4 * words.length ≤ maxSize) :
    ∃ s'', words.foldlM (fun s w => s.put maxSize 4 (word w)) s' = .ok s'' ∧
      Sink.Filled s s'' (span + 4 * words.length) (span + 4 * words.length) := by
  induction words generalizing s' span with
  | nil => exact ⟨s', rfl, h⟩
  | cons w words ih =>
    rw [List.length_cons] at hroom ⊢
    obtain ⟨s₁, hput, h₁⟩ := h.put (word w) (Nat.le_refl _)
      (show s.size + span + 4 ≤ maxSize by omega) (fun _ => rfl)
    obtain ⟨s₂, hrest, h₂⟩ := ih h₁ (by omega)
    rw [show span + 4 + 4 * words.length = span + 4 * (words.length + 1) by omega] at h₂
    refine ⟨s₂, ?_, h₂⟩
    rw [List.foldlM_cons, hput]
    exact hrest

theorem putTag_filled (t : RawTag) (hwords : t.words ≠ []) (htop : s.top ≤ s.p)
    (hroom : s.size + t.span ≤ maxSize) :
    ∃ s₁ s₂, t.words.foldlM (fun s w => s.put maxSize 4 (word w)) s = .ok s₁ ∧
      s₁.put maxSize (roundUp t.data.length) t.data = .ok s₂ ∧
      Sink.Filled s s₂ t.span (t.span - t.padding) := by
  have hpad := le_roundUp t.data.length
  obtain ⟨w, words, hw⟩ := List.exists_cons_of_ne_nil hwords
  have hlen : t.words.length = words.length + 1 := by rw [hw, List.length_cons]
  rw [RawTag.span, hlen] at hroom
  obtain ⟨s₀, hput, h₀⟩ := Sink.put_filled _ (show s.size + 4 ≤ maxSize by omega) htop
    (word_ne_nil w)
  obtain ⟨s₁, hrest, h₁⟩ := putWords_filled words h₀ (show s.size + 4 + _ ≤ maxSize by omega)
  obtain ⟨s₂, hdata, h₂⟩ := h₁.put t.data (Nat.le_refl _)
    (show s.size + (4 + 4 * words.length) + roundUp t.data.length ≤ maxSize by omega) (fun _ => rfl)
  refine ⟨s₁, s₂, ?_, hdata, ?_⟩
  · rw [hw, List.foldlM_cons, hput]
    exact hrest
  · have hspan : t.span = 4 + 4 * words.length + roundUp t.data.length := by
      rw [RawTag.span, hlen]
      omega
    have hreach : t.span - t.padding = 4 + 4 * words.length + t.data.length := by
      rw [hspan, RawTag.padding]
      omega
    rwa [hspan, ← hspan, hreach, hspan]

theorem serializeTags_filled {tags : List RawTag} (hwords : ∀ t ∈ tags, t.words ≠ []) (n : ℕ)
    {pad : ℕ} (h : Sink.Filled s s' span (span - pad)) (hpad : pad + 4 ≤ span)
    (hroom : s.size + span + (tags.map RawTag.span).sum ≤ maxSize) :
    ∃ s'', serializeTags maxSize s.p n tags s' = .ok s'' ∧
      Sink.Filled s s'' (span + (tags.map RawTag.span).sum)
        (span + (tags.map RawTag.span).sum - tags.foldl (fun _ t => t.padding) pad) := by
  induction tags generalizing s' span n pad with
  | nil => exact ⟨s', rfl, h⟩
  | cons t tags ih =>
    rw [List.map_cons, List.sum_cons] at hroom ⊢
    have hp := h.place
    have hcount := h.count
    have htop := h.top
    obtain ⟨s₁, s₂, hws, hdata, hone⟩ := putTag_filled (s := s') t
      (hwords t List.mem_cons_self) (by omega) (show s'.size + t.span ≤ maxSize by omega)
    have hle : t.padding ≤ t.span := by
      rw [RawTag.padding, RawTag.span]
      omega
    have h₂ := h.trans hone
    rw [← Nat.add_sub_assoc hle] at h₂
    have hcounted := h₂.writeAt s.p (word (n + 1)) (by rw [length_word]; omega)
    obtain ⟨s₃, hrest, h₃⟩ := ih (fun u hu => hwords u (List.mem_cons_of_mem t hu)) (n + 1) hcounted
      (by have := hpad; rw [RawTag.padding, RawTag.span] at *; omega) (by omega)
    rw [Nat.add_assoc] at h₃
    refine ⟨s₃, ?_, h₃⟩
    rw [serializeTags, hws]
    show (s₁.put _ _ _ >>= _) = _
    rw [hdata]
    exact hrest

end Puts

theorem serializeTagList_fills {tags : List RawTag} (hwords : ∀ t ∈ tags, t.words ≠ []) :
    Fills (tagsSize tags) (tagsSize tags - lastPadding tags) (serializeTagList tags) := by
  intro s htop hzero
  have hsize : tagsSize tags = 4 + (tags.map RawTag.span).sum := rfl
  obtain ⟨s₁, hput, h₁⟩ := Sink.put_filled _ (show s.size + 4 ≤ tagsSize tags by omega) htop
    (word_ne_nil 0)
  obtain ⟨s₂, hrest, h₂⟩ := serializeTags_filled hwords 0 h₁ (Nat.le_refl _)
    (show s.size + 4 + _ ≤ tagsSize tags by omega)
  refine ⟨s₂, ?_, h₂.top⟩
  rw [serializeTagList, hput]
  exact hrest

/-! ### Metadata -/

theorem addToRaw_filled {maxSize span : ℕ} {s s' : Sink} (pieces : List (List ℕ))
    (h : Sink.Filled s s' span span)
    (hroom : s.size + span + (pieces.map List.length).sum ≤ maxSize) :
    ∃ s'', pieces.foldlM (fun s bytes => Metadata.addToRaw maxSize bytes s) s' = .ok s'' ∧
      Sink.Filled s s'' (span + (pieces.map List.length).sum)
        (span + (pieces.map List.length).sum) := by
  induction pieces generalizing s' span with
  | nil => exact ⟨s', rfl, h⟩
  | cons bytes pieces ih =>
    rw [List.map_cons, List.sum_cons] at hroom ⊢
    obtain ⟨s₁, hput, h₁⟩ := h.put bytes (Nat.le_refl _)
      (show s.size + span + bytes.length ≤ maxSize by omega) (fun _ => rfl)
    obtain ⟨s₂, hrest, h₂⟩ := ih h₁ (by omega)
    rw [Nat.add_assoc] at h₂
    refine ⟨s₂, ?_, h₂⟩
    rw [List.foldlM_cons, Metadata.addToRaw, hput]
    exact hrest

theorem MetadataItem.length_pieces (i : MetadataItem) :
    (i.pieces.map List.length).sum = i.getSerializedSize := by
  rw [pieces, getSerializedSize, List.map_append, List.sum_append]
  congr 1
  split_ifs
  · rfl
  · rw [List.map_cons, List.sum_cons, length_word]
    rfl

theorem Metadata.length_items (items : List MetadataItem) :
    ((items.flatMap MetadataItem.pieces).map List.length).sum =
      (items.map MetadataItem.getSerializedSize).sum := by
  induction items with
  | nil => rfl
  | cons i items ih =>
    rw [List.flatMap_cons, List.map_append, List.sum_append, ih, i.length_pieces, List.map_cons,
      List.sum_cons]

theorem Metadata.serialize_fills (m : Metadata) :
    Fills m.getSerializedSize m.getSerializedSize m.serialize := by
  intro s htop hzero
  have hsize : m.getSerializedSize = 8 + (m.items.map MetadataItem.getSerializedSize).sum := by
    rw [getSerializedSize]
    split_ifs with he
    · rfl
    · rw [m.skipped (Bool.eq_false_iff.mpr he)]
      rfl
  obtain ⟨s₁, hput, h₁⟩ := Sink.put_filled (word64 m.packetUid)
    (show s.size + 8 ≤ m.getSerializedSize by omega) htop (List.cons_ne_nil _ _)
  obtain ⟨s₂, hrest, h₂⟩ := addToRaw_filled (m.items.flatMap MetadataItem.pieces) h₁
    (show s.size + 8 + _ ≤ m.getSerializedSize by rw [length_items]; omega)
  refine ⟨s₂, ?_, ?_⟩
  · rw [serialize, List.foldlM_cons]
    show (s.put _ 8 _ >>= _) = _
    rw [hput]
    exact hrest
  · rw [h₂.top, length_items, hsize]

/-! ### The buffer -/

theorem BufferContents.serialize_fills (b : BufferContents) :
    Fills b.getSerializedSize (12 + roundUp b.dataStart.length + b.dataEnd.length) b.serialize := by
  intro s htop hzero
  have hs := le_roundUp b.dataStart.length
  have hsize : b.getSerializedSize =
      12 + roundUp b.dataStart.length + roundUp b.dataEnd.length := by
    rw [getSerializedSize]
    omega
  obtain ⟨s₁, h₁, f₁⟩ := Sink.put_filled _ (show s.size + 4 ≤ b.getSerializedSize by omega) htop
    (word_ne_nil b.zeroAreaLength)
  obtain ⟨s₂, h₂, f₂⟩ := f₁.put (word b.dataStart.length) (Nat.le_refl _)
    (show s.size + 4 + 4 ≤ b.getSerializedSize by omega) (fun _ => rfl)
  obtain ⟨s₃, h₃, f₃⟩ := f₂.put b.dataStart (Nat.le_refl _)
    (show s.size + (4 + 4) + roundUp b.dataStart.length ≤ b.getSerializedSize by omega)
    (fun _ => rfl)
  obtain ⟨s₄, h₄, f₄⟩ := f₃.put (word b.dataEnd.length) (by omega)
    (show s.size + (4 + 4 + roundUp b.dataStart.length) + 4 ≤ b.getSerializedSize by omega)
    (fun h => absurd h (word_ne_nil _))
  obtain ⟨s₅, h₅, f₅⟩ := f₄.put b.dataEnd (Nat.le_refl _)
    (show s.size + (4 + 4 + roundUp b.dataStart.length + 4) + roundUp b.dataEnd.length ≤
      b.getSerializedSize by omega) (fun _ => rfl)
  refine ⟨s₅, ?_, ?_⟩
  · rw [serialize, h₁]
    show (s₁.put _ _ _ >>= _) = _
    rw [h₂]
    show (s₂.put _ _ _ >>= _) = _
    rw [h₃]
    show (s₃.put _ _ _ >>= _) = _
    rw [h₄]
    exact h₅
  · rw [f₅.top]
    omega

/-! ### The packet -/

namespace PacketParts

def tagsExtent (tags : List RawTag) : Extent :=
  ⟨tagsSize tags, 4 + (tagsSize tags - lastPadding tags), 4 + roundUp (tagsSize tags)⟩

def nixExtent (p : PacketParts) : Extent :=
  match p.nixVector with
  | some n => ⟨n.getSerializedSize, 4 + n.getSerializedSize, 4 + roundUp n.getSerializedSize⟩
  | none => ⟨4, 4, 4⟩

def extents (p : PacketParts) : List Extent :=
  [p.nixExtent, tagsExtent (p.byteTagList.map ByteTag.raw),
    tagsExtent (p.packetTagList.map PacketTag.raw),
    ⟨p.metadata.getSerializedSize, 4 + p.metadata.getSerializedSize,
      4 + roundUp p.metadata.getSerializedSize⟩,
    ⟨p.buffer.getSerializedSize,
      4 + (12 + roundUp p.buffer.dataStart.length + p.buffer.dataEnd.length),
      4 + roundUp p.buffer.getSerializedSize⟩]

def sections (p : PacketParts) (maxSize : ℕ) : List (Sink → Except Sink Sink) :=
  [serializeNix maxSize p.nixVector,
    serializeSection maxSize p.byteTagSize (serializeTagList (p.byteTagList.map ByteTag.raw)),
    serializeSection maxSize p.packetTagSize
      (serializeTagList (p.packetTagList.map PacketTag.raw)),
    serializeSection maxSize p.metadata.getSerializedSize p.metadata.serialize,
    serializeSection maxSize p.buffer.getSerializedSize p.buffer.serialize]

theorem run_eq (p : PacketParts) (maxSize : ℕ) (s : Sink) :
    p.run maxSize s = runAll (p.sections maxSize) s := by
  simp only [run, runAll, sections, List.foldlM_cons, List.foldlM_nil, bind_pure]

theorem serializeNix_writes (p : PacketParts) (maxSize : ℕ) :
    Writes maxSize p.nixExtent (serializeNix maxSize p.nixVector) := by
  unfold nixExtent serializeNix
  cases p.nixVector with
  | some n => exact serializeSection_writes n.serialize_fills
  | none =>
    intro s htop
    dsimp only
    split_ifs with hroom
    · obtain ⟨s', hs', h⟩ := Sink.put_filled _ hroom htop (word_ne_nil 4)
      exact ⟨s', hs', h.count, h.place, h.top⟩
    · exact if_neg hroom

theorem sections_write (p : PacketParts) (maxSize : ℕ) :
    List.Forall₂ (Writes maxSize) p.extents (p.sections maxSize) := by
  have htags : ∀ {tags : List RawTag}, (∀ t ∈ tags, t.words ≠ []) → Writes maxSize
      (tagsExtent tags) (serializeSection maxSize (tagsSize tags) (serializeTagList tags)) :=
    fun h => serializeSection_writes (serializeTagList_fills h)
  refine .cons (p.serializeNix_writes maxSize) (.cons (htags ?_) (.cons (htags ?_)
    (.cons (serializeSection_writes p.metadata.serialize_fills)
      (.cons (serializeSection_writes p.buffer.serialize_fills) .nil))))
  · intro t ht
    obtain ⟨u, _, rfl⟩ := List.mem_map.mp ht
    exact List.cons_ne_nil _ _
  · intro t ht
    obtain ⟨u, _, rfl⟩ := List.mem_map.mp ht
    exact List.cons_ne_nil _ _

theorem reach_le_span (p : PacketParts) : ∀ x ∈ p.extents, x.reach ≤ x.span := by
  intro x hx
  have hround := le_roundUp
  simp only [extents, List.mem_cons, List.not_mem_nil, or_false] at hx
  rcases hx with rfl | rfl | rfl | rfl | rfl
  · unfold nixExtent
    cases p.nixVector with
    | some n => exact Nat.add_le_add_left (hround _) 4
    | none => exact Nat.le_refl 4
  · exact Nat.add_le_add_left ((Nat.sub_le _ _).trans (hround _)) 4
  · exact Nat.add_le_add_left ((Nat.sub_le _ _).trans (hround _)) 4
  · exact Nat.add_le_add_left (hround _) 4
  · apply Nat.add_le_add_left (Nat.le_trans _ (hround _)) 4
    have := hround p.buffer.dataEnd.length
    rw [BufferContents.getSerializedSize]
    omega

theorem sum_span (p : PacketParts) :
    (p.extents.map Extent.span).sum = p.getSerializedSize := by
  simp only [extents, List.map_cons, List.map_nil, List.sum_cons, List.sum_nil, nixExtent,
    getSerializedSize, packetTagSize, byteTagSize, tagsExtent]
  cases p.nixVector with
  | some n =>
    dsimp only
    omega
  | none =>
    dsimp only
    omega

def countedSize (p : PacketParts) : ℕ := (p.extents.map Extent.count).sum

theorem countedSize_le (p : PacketParts) : p.countedSize ≤ p.getSerializedSize := by
  have hbyte := le_roundUp (tagsSize (p.byteTagList.map ByteTag.raw))
  have hpacket := le_roundUp (tagsSize (p.packetTagList.map PacketTag.raw))
  have hmeta := le_roundUp p.metadata.getSerializedSize
  have hbuffer := le_roundUp p.buffer.getSerializedSize
  simp only [countedSize, extents, List.map_cons, List.map_nil, List.sum_cons, List.sum_nil,
    nixExtent, getSerializedSize, packetTagSize, byteTagSize, tagsExtent]
  cases p.nixVector with
  | some n =>
    have hnix := le_roundUp n.getSerializedSize
    dsimp only
    omega
  | none =>
    dsimp only
    omega

end PacketParts

namespace Packet

/-- `Serialize` stays in the first `maxSize` bytes and returns 1 just when the packet fits them. -/
def Respects (p : Packet) (maxSize : ℕ) : Prop :=
  (∀ x ∈ (p.serialize maxSize).2, x.2 < maxSize) ∧
    (p.serialize maxSize).1 = if p.getSerializedSize ≤ maxSize then 1 else 0

instance (p : Packet) (maxSize : ℕ) : Decidable (p.Respects maxSize) :=
  inferInstanceAs (Decidable (_ ∧ _))

theorem serialize_within (p : Packet) (maxSize : ℕ) :
    (∀ x ∈ (p.serialize maxSize).2, x.2 < maxSize) ↔ Bounded maxSize 0 0 p.extents := by
  have htop := runAll_top (p.sections_write maxSize) p.reach_le_span (s := {}) (Nat.le_refl 0)
  rw [← p.run_eq] at htop
  have hwritten : (p.serialize maxSize).2 = (Sink.final (p.run maxSize {})).written := by
    unfold serialize
    cases p.run maxSize {} <;> rfl
  rw [hwritten, ← furthest_le]
  exact htop.trans (and_iff_right (Nat.zero_le maxSize))

theorem serialize_returns (p : Packet) (maxSize : ℕ) :
    (p.serialize maxSize).1 = if p.countedSize ≤ maxSize then 1 else 0 := by
  have hok := runAll_ok (p.sections_write maxSize) p.reach_le_span (s := {}) (Nat.le_refl 0)
    (Nat.zero_le maxSize)
  rw [← p.run_eq] at hok
  have hcounted : (0 + (p.extents.map Extent.count).sum ≤ maxSize) ↔ p.countedSize ≤ maxSize := by
    rw [Nat.zero_add]
    rfl
  have hiff := hok.trans hcounted
  unfold serialize
  cases hrun : p.run maxSize {} with
  | ok s => exact (if_pos (hiff.mp ⟨s, hrun⟩)).symm
  | error s =>
    have hno : ¬ p.countedSize ≤ maxSize := fun h => by
      obtain ⟨s', hs'⟩ := hiff.mpr h
      rw [hrun] at hs'
      exact absurd hs' nofun
    exact (if_neg hno).symm

theorem respects_iff (p : Packet) (maxSize : ℕ) :
    p.Respects maxSize ↔ p.getSerializedSize ≤ maxSize ∨
      maxSize < p.countedSize ∧ Bounded maxSize 0 0 p.extents := by
  have hle := p.countedSize_le
  rw [Respects, serialize_within, serialize_returns]
  constructor
  · intro h
    obtain ⟨hbounded, hret⟩ := h
    by_cases hfit : p.getSerializedSize ≤ maxSize
    · exact .inl hfit
    · rw [if_neg hfit] at hret
      refine .inr ⟨?_, hbounded⟩
      by_contra hcount
      rw [if_pos (Nat.le_of_not_lt hcount)] at hret
      exact absurd hret (by decide)
  · intro h
    rcases h with hfit | ⟨hcount, hbounded⟩
    · refine ⟨Bounded.of_span p.reach_le_span ?_, ?_⟩
      · rw [p.sum_span, Nat.zero_add]
        exact hfit
      · rw [if_pos hfit, if_pos (hle.trans hfit)]
    · refine ⟨hbounded, ?_⟩
      rw [if_neg (Nat.not_le_of_lt hcount), if_neg (Nat.not_le_of_lt (hcount.trans_le hle))]

def empty : Packet where
  nixVector := none
  byteTagList := []
  packetTagList := []
  metadata := ⟨false, 0, [], fun _ => rfl⟩
  buffer := ⟨0, [], []⟩
  fits := by decide

/-- It has 48 bytes; 32 are taken to be enough for them. -/
theorem empty_not_respects : ¬ empty.Respects 32 := by decide +kernel

end Packet
end NetGymSim.Network

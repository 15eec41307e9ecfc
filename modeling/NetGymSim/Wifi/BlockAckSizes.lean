import NetGymSim.Wifi.BlockAckCodec

/-!
# The size of a BlockAck and what an old object keeps of it

The size is computed from the configured type, the bytes are written from the records, and
the reader decides from each record's ack type, TID and AID what follows. They agree on the
headers that the setters build.
-/

namespace NetGymSim.Wifi
open NetGymSim.Lib
namespace CtrlBAckResponseHeader

structure PerAidRecord (len : ℕ) (info : BaInfoInstance) : Prop where
  aidTidInfo_lt : info.aidTidInfo < 65536
  startingSeq_lt : info.startingSeq < 4096
  ra_length : info.ra.length = 6
  unassociated : info.getAid11 = 2045 → len = 8
  blockAck : info.getAid11 ≠ 2045 → (¬ info.getAckType ∧ info.getTid < 8) →
    (len = 4 ∨ len = 8 ∨ len = 16 ∨ len = 32) ∧ info.bitmap.length = len
  noBitmap : info.getAid11 ≠ 2045 → ¬ (¬ info.getAckType ∧ info.getTid < 8) →
    len = 0 ∧ info.bitmap = []

structure Configured (h : CtrlBAckResponseHeader) : Prop where
  paired : h.baType.bitmapLen.length = h.baInfo.length
  single : h.baType.variant ≠ .multiSta → IsSingle h.baType.variant ∧
    h.baType.bitmapLen = [h.len 0] ∧ Sized h.baType.variant (h.len 0) ∧
    (h.info 0).startingSeq < 4096 ∧ (h.info 0).bitmap.length = h.len 0
  records : h.baType.variant = .multiSta →
    ∀ i < h.baInfo.length, PerAidRecord (h.len i) (h.info i)

def HasBitmap (h : CtrlBAckResponseHeader) (i : ℕ) : Prop :=
  h.baType.variant = .multiSta →
    (h.info i).getAid11 ≠ 2045 ∧ ¬ (h.info i).getAckType ∧ (h.info i).getTid < 8

instance (h : CtrlBAckResponseHeader) (i : ℕ) : Decidable (h.HasBitmap i) :=
  inferInstanceAs (Decidable (_ → _))

structure Carries (h r : CtrlBAckResponseHeader) : Prop where
  policy : r.baAckPolicy = h.baAckPolicy
  type : r.baType = h.baType
  tid : h.baType.variant ≠ .multiSta → r.tidInfo = h.tidInfo % 16
  count : r.baInfo.length = h.baInfo.length
  aidTidInfo : h.baType.variant = .multiSta →
    ∀ i < h.baInfo.length, (r.info i).aidTidInfo = (h.info i).aidTidInfo
  bitmap : ∀ i < h.baInfo.length, h.HasBitmap i →
    (r.info i).startingSeq = (h.info i).startingSeq ∧ (r.info i).bitmap = (h.info i).bitmap
  address : h.baType.variant = .multiSta →
    ∀ i < h.baInfo.length, (h.info i).getAid11 = 2045 → (r.info i).ra = (h.info i).ra

theorem getSerializedSize_congr {h r : CtrlBAckResponseHeader} (ht : r.baType = h.baType)
    (hv : h.baType.variant ≠ .multiTid) : r.getSerializedSize = h.getSerializedSize := by
  unfold getSerializedSize CtrlBAckResponseHeader.len
  rw [ht]
  cases h1 : h.baType.variant with
  | multiTid => exact absurd h1 hv
  | _ => rfl

/-! ### One bitmap -/

theorem carries_singleRead {h : CtrlBAckResponseHeader} (hc : h.Configured)
    (hv : h.baType.variant ≠ .multiSta) : h.Carries h.singleRead where
  policy := rfl
  type := rfl
  tid _ := rfl
  count := by
    have hlen := hc.paired
    rw [(hc.single hv).2.1] at hlen
    exact hlen
  aidTidInfo hm := absurd hm hv
  bitmap i hi _ := by
    have hlen := hc.paired
    rw [(hc.single hv).2.1] at hlen
    obtain rfl : i = 0 := by
      simp only [List.length_singleton] at hlen
      omega
    exact ⟨rfl, rfl⟩
  address hm := absurd hm hv

theorem getSerializedSize_single {h : CtrlBAckResponseHeader} (hv : IsSingle h.baType.variant) :
    h.getSerializedSize = 4 + h.len 0 := by
  unfold getSerializedSize
  rcases hv with hv | hv | hv <;> rw [hv] <;> exact (Nat.add_assoc 2 2 _).symm

/-! ### The subfields -/

theorem PerAidRecord.sentInfo {len : ℕ} {info : BaInfoInstance} (hr : PerAidRecord len info) :
    SentInfo len info where
  aidTidInfo_lt := hr.aidTidInfo_lt
  context := by
    by_cases haid : info.getAid11 = 2045
    · exact Or.inr (Or.inr ⟨haid, hr.ra_length⟩)
    · by_cases hctx : ¬ info.getAckType ∧ info.getTid < 8
      · obtain ⟨hlen, hb⟩ := hr.blockAck haid hctx
        exact Or.inl ⟨haid, hctx, hr.startingSeq_lt, hb, hlen⟩
      · obtain ⟨hlen, hb⟩ := hr.noBitmap haid hctx
        exact Or.inr (Or.inl ⟨haid, hctx, hb, hlen⟩)

theorem PerAidRecord.length_serializeInfo {h : CtrlBAckResponseHeader} {i : ℕ}
    (hr : PerAidRecord (h.len i) (h.info i)) :
    (h.serializeInfo i).length = 2 + (if h.len i > 0 then 2 else 0) + h.len i := by
  unfold serializeInfo
  dsimp only
  by_cases haid : (h.info i).getAid11 = 2045
  · have hlen := hr.unassociated haid
    rw [if_neg (not_not.mpr haid), hlen]
    simp [writeHtolsbU16, hr.ra_length]
  · rw [if_pos haid]
    by_cases hctx : ¬ (h.info i).getAckType ∧ (h.info i).getTid < 8
    · obtain ⟨hlen, hb⟩ := hr.blockAck haid hctx
      have hpos : 0 < h.len i := by omega
      have hne : (h.info i).bitmap ≠ [] := by
        intro he
        rw [he] at hb
        exact absurd hb (Nat.ne_of_lt hpos)
      rw [if_pos hne, if_pos hpos]
      simp only [writeHtolsbU16, List.length_append, List.length_cons, List.length_nil, hb]
      omega
    · obtain ⟨hlen, hb⟩ := hr.noBitmap haid hctx
      rw [if_neg (not_not.mpr hb), hlen]
      rfl

theorem PerAidRecord.decodedLen_eq {h : CtrlBAckResponseHeader} {i : ℕ}
    (hr : PerAidRecord (h.len i) (h.info i)) : h.decodedLen i = h.len i := by
  unfold decodedLen
  split_ifs with haid
  · rfl
  · exact (hr.unassociated (not_not.mp haid)).symm

theorem getSerializedSize_multiSta {h : CtrlBAckResponseHeader} (hc : h.Configured)
    (hv : h.baType.variant = .multiSta) :
    h.getSerializedSize = 2 + ((List.range h.baInfo.length).flatMap h.serializeInfo).length := by
  have hlens : h.baType.bitmapLen = (List.range h.baInfo.length).map h.len := by
    apply List.ext_getElem
    · simp [hc.paired]
    · intro i h1 h2
      simp [CtrlBAckResponseHeader.len, List.getD_eq_getElem?_getD, h1]
  have hmap : ((List.range h.baInfo.length).map h.len).map
      (fun len => 2 + (if len > 0 then 2 else 0) + len) =
        (List.range h.baInfo.length).map fun i => (h.serializeInfo i).length := by
    rw [List.map_map]
    apply List.map_congr_left
    intro i hi
    exact (hc.records hv i (List.mem_range.mp hi)).length_serializeInfo.symm
  unfold getSerializedSize
  rw [hv, List.length_flatMap]
  exact congrArg (2 + List.sum ·) (hlens ▸ hmap)

theorem info_readOver (old h : CtrlBAckResponseHeader) {i n : ℕ} (hi : i < n) :
    (readOver old h n).info i = sent (h.info i) := by
  simp [CtrlBAckResponseHeader.info, readOver, List.getD_eq_getElem?_getD, hi]

theorem carries_readOver {h : CtrlBAckResponseHeader} (hc : h.Configured)
    (hv : h.baType.variant = .multiSta) (old : CtrlBAckResponseHeader) :
    h.Carries (readOver old h h.baInfo.length) where
  policy := rfl
  type := by
    have hlens : (List.range h.baInfo.length).map h.decodedLen = h.baType.bitmapLen := by
      apply List.ext_getElem
      · simp [hc.paired]
      · intro i h1 h2
        have hi : i < h.baInfo.length := by simpa using h1
        have hlen : h.len i = h.baType.bitmapLen[i] := by
          simp [CtrlBAckResponseHeader.len, List.getD_eq_getElem?_getD, h2]
        rw [List.getElem_map, List.getElem_range, (hc.records hv i hi).decodedLen_eq, hlen]
    unfold readOver
    rw [hlens, ← hv]
  tid hm := absurd hv hm
  count := by simp [readOver]
  aidTidInfo _ i hi := by
    rw [info_readOver old h hi]
    unfold sent
    split_ifs <;> rfl
  bitmap i hi hb := by
    obtain ⟨haid, hctx⟩ := hb hv
    rw [info_readOver old h hi]
    unfold sent
    rw [if_pos haid, if_pos hctx]
    exact ⟨rfl, rfl⟩
  address _ i hi haid := by
    rw [info_readOver old h hi]
    unfold sent
    rw [if_neg (not_not.mpr haid)]

/-! ### Every variant -/

/-- As many bytes are written as the size says, they are all read, and the header read has
the same size and everything that is sent. -/
theorem response_read_back {h : CtrlBAckResponseHeader} (hc : h.Configured)
    (old : CtrlBAckResponseHeader) :
    ∃ bytes r, h.serialize = some bytes ∧ bytes.length = h.getSerializedSize ∧
      old.deserializeInto bytes = some (r, bytes.length) ∧ h.Carries r ∧
      r.getSerializedSize = h.getSerializedSize := by
  by_cases hv : h.baType.variant = .multiSta
  · obtain ⟨bytes, hb, hbytes, hd⟩ := deserializeInto_multiSta hv
      (fun i hi => (hc.records hv i hi).sentInfo) old
    have hcarries := carries_readOver hc hv old
    refine ⟨bytes, _, hb, ?_, hd, hcarries, getSerializedSize_congr hcarries.type ?_⟩
    · rw [getSerializedSize_multiSta hc hv, hbytes, List.length_append]
      rfl
    · rw [hv]
      decide
  · obtain ⟨hsingle, hlen, hsized, hs, hbl⟩ := hc.single hv
    obtain ⟨bytes, hb, hlength, hd⟩ := deserializeInto_single hsingle hlen hsized hs hbl old
    have hcarries := carries_singleRead hc hv
    refine ⟨bytes, _, hb, ?_, hd, hcarries, getSerializedSize_congr hcarries.type ?_⟩
    · rw [hlength, getSerializedSize_single hsingle]
    · rcases hsingle with h1 | h1 | h1 <;> rw [h1] <;> decide

/-- An acknowledgement of one MPDU, a bitmap of four bytes, and an unassociated station. -/
def threeRecords : CtrlBAckResponseHeader :=
  let h := ofType ⟨.multiSta, [0, 4, 8]⟩
  (((h.setAid11 1 0).setTidInfo 8 0).setAid11 2 1).setAid11 2045 2

theorem threeRecords_configured : threeRecords.Configured where
  paired := rfl
  single hv := absurd rfl hv
  records _ i hi := by
    have hi' : i < 3 := hi
    obtain rfl | rfl | rfl : i = 0 ∨ i = 1 ∨ i = 2 := by omega
    all_goals exact ⟨by decide, by decide, by decide, by decide, by decide, by decide⟩

theorem threeRecords_read_back :
    ∃ bytes r, threeRecords.serialize = some bytes ∧
      bytes.length = threeRecords.getSerializedSize ∧
      (ofType (.ofVariant .compressed)).deserializeInto bytes = some (r, bytes.length) ∧
      threeRecords.Carries r ∧ r.getSerializedSize = threeRecords.getSerializedSize :=
  response_read_back threeRecords_configured (ofType (.ofVariant .compressed))

/-- The eight bytes that `SetType` gives a record are not sent for an unassociated station. -/
theorem unassociated_bitmap_not_read_back :
    threeRecords.Configured ∧ ∃ bytes r, threeRecords.serialize = some bytes ∧
      (ofType (.ofVariant .basic)).deserializeInto bytes = some (r, bytes.length) ∧
      (threeRecords.info 2).bitmap = List.replicate 8 0 ∧ (r.info 2).bitmap = [] := by
  obtain ⟨bytes, hb, _, hd⟩ := deserializeInto_multiSta (h := threeRecords) rfl
    (fun i hi => (threeRecords_configured.records rfl i hi).sentInfo) (ofType (.ofVariant .basic))
  exact ⟨threeRecords_configured, bytes, _, hb, hd, by decide, by decide⟩

end CtrlBAckResponseHeader
end NetGymSim.Wifi

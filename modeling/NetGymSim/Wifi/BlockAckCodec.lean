import NetGymSim.Wifi.BlockAckHeader
import NetGymSim.Lib.BitFields

/-!
# A BlockAck is read back as it was written

Of a subfield for an unassociated station only the address is sent; all other fields
come back, the length of a bitmap by way of the fragment number.
-/

namespace NetGymSim.Wifi
open NetGymSim.Lib
namespace CtrlBAckResponseHeader

/-! ### Words -/

theorem readLsbtohU16_write {v : ℕ} (h : v < 65536) (rest : List ℕ) :
    readLsbtohU16 (writeHtolsbU16 v ++ rest) = some (v, rest) := by
  have : v % 256 + 256 * (v / 256 % 256) = v := by omega
  simp only [writeHtolsbU16, List.cons_append, List.nil_append, readLsbtohU16, this]

theorem readBytes_append (bytes rest : List ℕ) :
    readBytes bytes.length (bytes ++ rest) = some (bytes, rest) := by
  simp [readBytes]

theorem and_3 (v : ℕ) : v &&& 0x0003 = v % 4 := Nat.and_two_pow_sub_one_eq_mod v 2
theorem and_4095 (v : ℕ) : v &&& 0x0fff = v % 4096 := Nat.and_two_pow_sub_one_eq_mod v 12

theorem sequenceControl_eq {startingSeq fragment : ℕ} (hs : startingSeq < 4096)
    (hf : fragment < 16) :
    ((startingSeq <<< 4) &&& 0xfff0) ||| fragment = startingSeq * 16 + fragment := by
  have hmask : (startingSeq <<< 4) &&& 0xfff0 = startingSeq <<< 4 := by
    rw [show 0xfff0 = 0x0fff <<< 4 from rfl, ← Nat.shiftLeft_and_distrib, and_4095,
      Nat.mod_eq_of_lt hs]
  rw [hmask]
  exact shiftLeft_or startingSeq (k := 4) hf

def Announced (variant : BlockAckVariant) (len : ℕ) : Prop :=
  match variant with
  | .compressed => len = 8 ∨ len = 32
  | .extendedCompressed => len = 8
  | .multiSta => len = 4 ∨ len = 8 ∨ len = 16 ∨ len = 32
  | _ => False

theorem fragmentNumber_lt (variant : BlockAckVariant) (len : ℕ) :
    fragmentNumber variant len < 16 := by
  unfold fragmentNumber
  split
  · split_ifs <;> omega
  · split_ifs <;> omega
  · omega

theorem bitmapLenOf_control {variant : BlockAckVariant} {len startingSeq : ℕ}
    (hl : Announced variant len) (hv : variant ≠ .extendedCompressed) :
    bitmapLenOf variant (startingSeq * 16 + fragmentNumber variant len) = some len := by
  have hbits : ∀ f, f = 0 ∨ f = 2 ∨ f = 4 ∨ f = 6 →
      (startingSeq * 16 + f) % 2 = 0 ∧ (startingSeq * 16 + f) / 8 % 2 = 0 ∧
        (startingSeq * 16 + f) / 2 % 4 = f / 2 := by
    intro f hf
    omega
  have key : ∀ f, f = 0 ∨ f = 2 ∨ f = 4 ∨ f = 6 →
      bitmapLenOf variant (startingSeq * 16 + f) = bitmapLenOf variant f := by
    intro f hf
    obtain ⟨h1, h2, h3⟩ := hbits f hf
    have h0 : f % 2 = 0 ∧ f / 8 % 2 = 0 ∧ f / 2 % 4 = f / 2 := by omega
    unfold bitmapLenOf
    have e1 : 2 ^ 1 = 2 := rfl
    have e3 : 2 ^ 3 = 8 := rfl
    simp only [Nat.and_one_is_mod, and_3, Nat.shiftRight_eq_div_pow, e1, e3, h1, h2, h3, h0.1,
      h0.2.1, h0.2.2]
  cases variant with
  | compressed =>
    rcases hl with rfl | rfl <;> exact (key _ (by decide)).trans (by decide)
  | multiSta =>
    rcases hl with rfl | rfl | rfl | rfl <;> exact (key _ (by decide)).trans (by decide)
  | extendedCompressed => exact absurd rfl hv
  | basic => exact hl.elim
  | multiTid => exact hl.elim

theorem sequence_of_control {startingSeq fragment : ℕ} (hs : startingSeq < 4096)
    (hf : fragment < 16) : ((startingSeq * 16 + fragment) >>> 4) &&& 0x0fff = startingSeq := by
  rw [and_4095, Nat.shiftRight_eq_div_pow]
  omega

/-! ### One bitmap -/

structure SoundBitmap (variant : BlockAckVariant) (len : ℕ) (info : BaInfoInstance) : Prop where
  startingSeq_lt : info.startingSeq < 4096
  length : info.bitmap.length = len
  announced : Announced variant len

theorem control_lt {startingSeq fragment : ℕ} (hs : startingSeq < 4096) (hf : fragment < 16) :
    startingSeq * 16 + fragment < 65536 := by omega

theorem getStartingSequenceControl_eq {h : CtrlBAckResponseHeader} {index : ℕ}
    (hs : (h.info index).startingSeq < 4096) :
    h.getStartingSequenceControl index = (h.info index).startingSeq * 16 +
      fragmentNumber h.baType.variant (h.len index) :=
  sequenceControl_eq hs (fragmentNumber_lt _ _)

theorem tid_masked (tid : ℕ) : (tid <<< 12) &&& (0xf <<< 12) = (tid % 16) <<< 12 := by
  rw [← Nat.shiftLeft_and_distrib, Nat.and_two_pow_sub_one_eq_mod tid 4]

def IsSingle (variant : BlockAckVariant) : Prop :=
  variant = .basic ∨ variant = .compressed ∨ variant = .extendedCompressed

theorem getBaControl_single {h : CtrlBAckResponseHeader} (hv : IsSingle h.baType.variant) :
    h.getBaControl = ((if h.baAckPolicy then 0x1 else 0) |||
      (variantBits h.baType.variant <<< 1)) ||| ((h.tidInfo % 16) <<< 12) := by
  have hne : h.baType.variant ≠ .multiSta := by
    rcases hv with hv | hv | hv <;> rw [hv] <;> decide
  unfold getBaControl
  rw [if_pos hne, tid_masked]

theorem setBaControl_single {h : CtrlBAckResponseHeader} (hv : IsSingle h.baType.variant)
    (start : CtrlBAckResponseHeader) :
    start.setBaControl h.getBaControl =
      some { start.setType (.ofVariant h.baType.variant) with
        baAckPolicy := h.baAckPolicy
        tidInfo := h.tidInfo % 16 } := by
  have hbits : ∀ p : Bool, ∀ v ∈ [BlockAckVariant.basic, .compressed, .extendedCompressed],
      ∀ tid < 16,
      let ba := ((if p then 0x1 else 0) ||| (variantBits v <<< 1)) ||| (tid <<< 12)
      decide ((ba &&& 0x01) = 1) = p ∧ (ba >>> 1) &&& 0x0f = variantBits v ∧
        (ba >>> 12) &&& 0x0f = tid := by decide
  obtain ⟨h1, h2, h3⟩ := hbits h.baAckPolicy h.baType.variant (by simpa [IsSingle] using hv) _
    (Nat.mod_lt h.tidInfo (by omega))
  rw [getBaControl_single hv]
  unfold setBaControl
  rw [h1, h2, h3]
  rcases hv with hv | hv | hv <;> rw [hv] <;> rfl

theorem getBaControl_lt (h : CtrlBAckResponseHeader) : h.getBaControl < 65536 := by
  have hbits : ∀ p : Bool, ∀ v ∈ [BlockAckVariant.basic, .compressed, .extendedCompressed,
      .multiTid, .multiSta], ∀ tid < 16,
      (((if p then 0x1 else 0) ||| (variantBits v <<< 1)) ||| (tid <<< 12)) < 65536 ∧
      ((if p then 0x1 else 0) ||| (variantBits v <<< 1)) < 65536 := by decide
  have := hbits h.baAckPolicy h.baType.variant (by cases h.baType.variant <;> simp) _
    (Nat.mod_lt h.tidInfo (by omega))
  unfold getBaControl
  dsimp only
  rw [tid_masked]
  split_ifs <;> simp_all

def Sized (variant : BlockAckVariant) (len : ℕ) : Prop :=
  if variant = .basic then len = 128 else Announced variant len

/-- What `Deserialize` leaves of a header with one bitmap. -/
def singleRead (h : CtrlBAckResponseHeader) : CtrlBAckResponseHeader where
  baAckPolicy := h.baAckPolicy
  baType := h.baType
  tidInfo := h.tidInfo % 16
  baInfo := [{ startingSeq := (h.info 0).startingSeq, bitmap := (h.info 0).bitmap }]

theorem serialize_single {h : CtrlBAckResponseHeader} (hv : IsSingle h.baType.variant)
    (hs : (h.info 0).startingSeq < 4096) :
    h.serialize = some (writeHtolsbU16 h.getBaControl ++
      (writeHtolsbU16 ((h.info 0).startingSeq * 16 +
        fragmentNumber h.baType.variant (h.len 0)) ++ (h.info 0).bitmap)) := by
  unfold serialize
  rw [getStartingSequenceControl_eq hs]
  rcases hv with hv | hv | hv <;> rw [hv]

theorem readBitmap_single {r : CtrlBAckResponseHeader} {variant : BlockAckVariant} {len : ℕ}
    (hv : IsSingle variant) (hl : Sized variant len)
    (hr : r.baType = .ofVariant variant)
    (hi : r.baInfo = (BlockAckType.ofVariant variant).bitmapLen.map fun n =>
      { bitmap := List.replicate n 0 })
    {startingSeq : ℕ} (hs : startingSeq < 4096) {bitmap : List ℕ} (hb : bitmap.length = len) :
    ((r.setStartingSequenceControl (startingSeq * 16 + fragmentNumber variant len) 0).bind
        fun h => h.deserializeBitmap 0 bitmap) =
      some ({ r with
        baType := ⟨variant, [len]⟩
        baInfo := [{ startingSeq := startingSeq, bitmap := bitmap }] }, []) := by
  have hseq := sequence_of_control hs (fragmentNumber_lt variant len)
  have hread := readBytes_append bitmap []
  rw [List.append_nil, hb] at hread
  have hlenOf : variant = .compressed →
      bitmapLenOf .compressed (startingSeq * 16 + fragmentNumber variant len) = some len := by
    rintro rfl
    exact bitmapLenOf_control hl (by decide)
  rcases hv with rfl | rfl | rfl
  · obtain rfl : len = 128 := hl
    simp only [setStartingSequenceControl, withBitmapLen, hr, hi, BlockAckType.ofVariant,
      Option.map_some, hseq, Option.bind_some, deserializeBitmap, setStartingSequence, modifyInfo,
      CtrlBAckResponseHeader.len, List.map_cons, List.map_nil, List.getD_cons_zero, hread,
      List.modify_zero_cons, Option.pure_def, Option.bind_eq_bind]
  · simp only [setStartingSequenceControl, withBitmapLen, hr, BlockAckType.ofVariant, setType,
      hlenOf rfl, Option.map_some, hseq, Option.bind_some, deserializeBitmap,
      setStartingSequence, modifyInfo, CtrlBAckResponseHeader.len, List.map_cons, List.map_nil,
      List.getD_cons_zero, hread, List.modify_zero_cons, Option.pure_def, Option.bind_eq_bind]
  · obtain rfl : len = 8 := hl
    simp only [setStartingSequenceControl, withBitmapLen, hr, hi, BlockAckType.ofVariant,
      Option.map_some, hseq, Option.bind_some, deserializeBitmap, setStartingSequence, modifyInfo,
      CtrlBAckResponseHeader.len, List.map_cons, List.map_nil, List.getD_cons_zero, hread,
      List.modify_zero_cons, Option.pure_def, Option.bind_eq_bind]

theorem deserializeInto_single {h : CtrlBAckResponseHeader} {len : ℕ}
    (hv : IsSingle h.baType.variant) (hlen : h.baType.bitmapLen = [len])
    (hl : Sized h.baType.variant len) (hs : (h.info 0).startingSeq < 4096)
    (hb : (h.info 0).bitmap.length = len) (old : CtrlBAckResponseHeader) :
    ∃ bytes, h.serialize = some bytes ∧ bytes.length = 4 + len ∧
      old.deserializeInto bytes = some (h.singleRead, bytes.length) := by
  have hl0 : h.len 0 = len := by
    unfold CtrlBAckResponseHeader.len
    rw [hlen]
    rfl
  have hfrag := fragmentNumber_lt h.baType.variant len
  have hser := serialize_single hv hs
  rw [hl0] at hser
  refine ⟨_, hser, ?_, ?_⟩
  · simp only [List.length_append, writeHtolsbU16, List.length_cons, List.length_nil, hb]
    omega
  · have hread := readBitmap_single (r := { old.setType (.ofVariant h.baType.variant) with
      baAckPolicy := h.baAckPolicy
      tidInfo := h.tidInfo % 16 }) hv hl rfl rfl hs hb
    have htype : (⟨h.baType.variant, [len]⟩ : BlockAckType) = h.baType := by rw [← hlen]
    rw [htype] at hread
    unfold deserializeInto
    rw [readLsbtohU16_write (getBaControl_lt _)]
    simp only [Option.bind_eq_bind, Option.bind_some]
    rw [setBaControl_single hv]
    simp only [Option.bind_some, readLsbtohU16_write (control_lt hs hfrag)]
    have hvar : (old.setType (.ofVariant h.baType.variant)).baType.variant =
        h.baType.variant := by
      rcases hv with hv | hv | hv <;> rw [hv] <;> rfl
    rw [hvar]
    obtain ⟨r, hr, hrest⟩ := Option.bind_eq_some_iff.mp hread
    split
    case h_4 e => rw [e] at hv; simp [IsSingle] at hv
    case h_5 e => rw [e] at hv; simp [IsSingle] at hv
    all_goals
      simp only [hr, Option.bind_some, hrest]
      rfl

theorem deserialize_eq (bytes : List ℕ) :
    deserialize bytes =
      ((ofType (.ofVariant .basic)).deserializeInto bytes).map Prod.fst := by
  unfold deserialize deserializeInto
  cases readLsbtohU16 bytes with
  | none => rfl
  | some word =>
    simp only [Option.bind_eq_bind, Option.bind_some]
    cases (ofType (.ofVariant .basic)).setBaControl word.1 with
    | none => rfl
    | some h =>
      simp only [Option.bind_some]
      cases h.baType.variant <;>
        simp [Option.map_bind, Option.map_map, Function.comp_def]

theorem deserialize_one {h : CtrlBAckResponseHeader} {len startingSeq : ℕ} {bitmap : List ℕ}
    (ht : h.tidInfo < 16)
    (hv : h.baType.variant = .compressed ∨ h.baType.variant = .extendedCompressed)
    (hlen : h.baType.bitmapLen = [len])
    (hinfo : h.baInfo = [{ startingSeq := startingSeq, bitmap := bitmap }])
    (hs : SoundBitmap h.baType.variant len { startingSeq := startingSeq, bitmap := bitmap }) :
    ∃ bytes, h.serialize = some bytes ∧ deserialize bytes = some h := by
  have hi : h.info 0 = { startingSeq := startingSeq, bitmap := bitmap } := by
    unfold info
    rw [hinfo]
    rfl
  have hl : Sized h.baType.variant len := by
    unfold Sized
    rw [if_neg (by rcases hv with hv | hv <;> rw [hv] <;> decide)]
    exact hs.announced
  obtain ⟨bytes, hb, _, hd⟩ := deserializeInto_single (Or.inr hv) hlen hl
    (by rw [hi]; exact hs.startingSeq_lt) (by rw [hi]; exact hs.length)
    (ofType (.ofVariant .basic))
  have hsame : h.singleRead = h := by
    unfold singleRead
    rw [Nat.mod_eq_of_lt ht, hi, ← hinfo]
  exact ⟨bytes, hb, by rw [deserialize_eq, hd, Option.map_some, hsame]⟩

/-! ### The subfields of the Multi-STA variant -/

theorem modify_concat {α : Type*} (l : List α) (a : α) (f : α → α) :
    (l ++ [a]).modify l.length f = l ++ [f a] := by
  induction l with
  | nil => rfl
  | cons b l ih => simpa using ih

theorem set_concat {α : Type*} (l : List α) (a b : α) : (l ++ [a]).set l.length b = l ++ [b] := by
  simp

theorem getD_concat {α : Type*} (l : List α) (a b : α) : (l ++ [a]).getD l.length b = a := by
  simp

/-- A subfield in one of its three contexts: block acknowledgement with a bitmap,
acknowledgement without one, unassociated station with an address. -/
structure SoundInfo (len : ℕ) (info : BaInfoInstance) : Prop where
  aidTidInfo_lt : info.aidTidInfo < 65536
  context : (info.getAid11 ≠ 2045 ∧ (¬ info.getAckType ∧ info.getTid < 8) ∧
      SoundBitmap .multiSta len info) ∨
    (info.getAid11 ≠ 2045 ∧ ¬ (¬ info.getAckType ∧ info.getTid < 8) ∧ info.bitmap = [] ∧
      len = 0 ∧ info.startingSeq = 0) ∨
    (info.getAid11 = 2045 ∧ info.ra.length = 6)

def decoded (info : BaInfoInstance) : BaInfoInstance :=
  if info.getAid11 ≠ 2045 then
    { aidTidInfo := info.aidTidInfo, startingSeq := info.startingSeq, bitmap := info.bitmap }
  else { aidTidInfo := info.aidTidInfo, ra := info.ra }

def decodedLen (h : CtrlBAckResponseHeader) (index : ℕ) : ℕ :=
  if (h.info index).getAid11 ≠ 2045 then h.len index else 8

def readBack (h : CtrlBAckResponseHeader) (k : ℕ) : CtrlBAckResponseHeader where
  baAckPolicy := h.baAckPolicy
  baType := ⟨.multiSta, (List.range k).map h.decodedLen⟩
  baInfo := (List.range k).map fun i => decoded (h.info i)

theorem info_readBack (h : CtrlBAckResponseHeader) {i n : ℕ} (hi : i < n) :
    (h.readBack n).info i = decoded (h.info i) := by
  simp [CtrlBAckResponseHeader.info, readBack, List.getD_eq_getElem?_getD, hi]

theorem len_readBack (h : CtrlBAckResponseHeader) {i n : ℕ} (hi : i < n) :
    (h.readBack n).len i = h.decodedLen i := by
  simp [CtrlBAckResponseHeader.len, readBack, List.getD_eq_getElem?_getD, hi]

def sent (info : BaInfoInstance) : BaInfoInstance :=
  if info.getAid11 ≠ 2045 then
    if ¬ info.getAckType ∧ info.getTid < 8 then
      { aidTidInfo := info.aidTidInfo, startingSeq := info.startingSeq, bitmap := info.bitmap }
    else { aidTidInfo := info.aidTidInfo }
  else { aidTidInfo := info.aidTidInfo, ra := info.ra }

/-- A subfield in one of its three contexts, whatever its members are that are not sent. -/
structure SentInfo (len : ℕ) (info : BaInfoInstance) : Prop where
  aidTidInfo_lt : info.aidTidInfo < 65536
  context : (info.getAid11 ≠ 2045 ∧ (¬ info.getAckType ∧ info.getTid < 8) ∧
      SoundBitmap .multiSta len info) ∨
    (info.getAid11 ≠ 2045 ∧ ¬ (¬ info.getAckType ∧ info.getTid < 8) ∧ info.bitmap = [] ∧
      len = 0) ∨
    (info.getAid11 = 2045 ∧ info.ra.length = 6)

theorem SoundInfo.sentInfo {len : ℕ} {info : BaInfoInstance} (hs : SoundInfo len info) :
    SentInfo len info where
  aidTidInfo_lt := hs.aidTidInfo_lt
  context := by
    rcases hs.context with h | ⟨h1, h2, h3, h4, _⟩ | h
    · exact Or.inl h
    · exact Or.inr (Or.inl ⟨h1, h2, h3, h4⟩)
    · exact Or.inr (Or.inr h)

theorem SoundInfo.sent_eq {len : ℕ} {info : BaInfoInstance} (hs : SoundInfo len info) :
    sent info = decoded info := by
  unfold sent decoded
  rcases hs.context with ⟨h1, h2, _⟩ | ⟨h1, h2, h3, _, h5⟩ | ⟨h1, _⟩
  · rw [if_pos h1, if_pos h2, if_pos h1]
  · rw [if_pos h1, if_neg h2, if_pos h1, h3, h5]
  · rw [if_neg (not_not.mpr h1), if_neg (not_not.mpr h1)]

theorem deserializeInfo_append {h r : CtrlBAckResponseHeader}
    (hv : h.baType.variant = .multiSta)
    (hlen : r.baType.bitmapLen.length = r.baInfo.length)
    {k : ℕ} (hs : SentInfo (h.len k) (h.info k)) (rest : List ℕ) :
    r.deserializeInfo (h.serializeInfo k ++ rest) =
      some ({ r with
        baType := ⟨.multiSta, r.baType.bitmapLen ++ [h.decodedLen k]⟩
        baInfo := r.baInfo ++ [sent (h.info k)] }, rest) := by
  unfold deserializeInfo serializeInfo decodedLen sent
  dsimp only
  rw [List.append_assoc, readLsbtohU16_write hs.aidTidInfo_lt]
  simp only [Option.bind_eq_bind, Option.bind_some]
  have hcongr : ∀ info : BaInfoInstance, info.aidTidInfo = (h.info k).aidTidInfo →
      info.getAid11 = (h.info k).getAid11 ∧ info.getAckType = (h.info k).getAckType ∧
        info.getTid = (h.info k).getTid := by
    intro info hi
    unfold BaInfoInstance.getAid11 BaInfoInstance.getAckType BaInfoInstance.getTid
    rw [hi]
    exact ⟨rfl, rfl, rfl⟩
  obtain ⟨e1, e2, e3⟩ := hcongr { aidTidInfo := (h.info k).aidTidInfo } rfl
  rw [e1, e2, e3]
  rcases hs.context with ⟨haid, hctx, hb⟩ | ⟨haid, hctx, hb, hl⟩ | ⟨haid, hra⟩
  · have hne : (h.info k).bitmap ≠ [] := by
      intro he
      have h1 := hb.length
      have h2 := hb.announced
      rw [he] at h1
      rw [← h1] at h2
      simp [Announced] at h2
    have hlenOf : bitmapLenOf .multiSta ((h.info k).startingSeq * 16 +
        fragmentNumber .multiSta (h.len k)) = some (h.len k) :=
      bitmapLenOf_control hb.announced (by decide)
    have hseq := sequence_of_control hb.startingSeq_lt (fragmentNumber_lt .multiSta (h.len k))
    have hread := readBytes_append (h.info k).bitmap rest
    rw [hb.length] at hread
    rw [if_pos haid, if_pos hctx, if_pos haid, if_pos hne, if_pos haid, if_pos haid, if_pos hctx,
      getStartingSequenceControl_eq hb.startingSeq_lt, hv, List.append_assoc,
      readLsbtohU16_write (control_lt hb.startingSeq_lt (fragmentNumber_lt _ _))]
    generalize h.len k = len at hlenOf hseq hread
    simp only [Option.bind_some, setStartingSequenceControl, withBitmapLen, hlenOf,
      Option.map_some, hseq, deserializeBitmap, setStartingSequence, modifyInfo,
      CtrlBAckResponseHeader.len, ← hlen, set_concat, getD_concat, hread,
      Option.bind_eq_bind, Option.pure_def]
    rw [hlen]
    simp only [modify_concat]
  · rw [if_pos haid, if_neg hctx, if_pos haid, if_neg (by simpa using hb), if_pos haid,
      if_pos haid, if_neg hctx, hl]
    rfl
  · have hnot : ¬ (h.info k).getAid11 ≠ 2045 := not_not.mpr haid
    have hread := readBytes_append (h.info k).ra rest
    rw [hra] at hread
    have hres : readBytes 4 ([0, 0, 0, 0] ++ ((h.info k).ra ++ rest)) =
        some ([0, 0, 0, 0], (h.info k).ra ++ rest) := readBytes_append [0, 0, 0, 0] _
    rw [if_neg hnot, if_neg hnot, if_neg hnot, if_neg hnot, List.append_assoc, hres]
    simp only [Option.bind_some, hread, ← hlen, set_concat, Option.pure_def]
    rw [hlen]
    simp only [modify_concat]

/-- The header after the first `k` subfields have been read over an old one: `m_tidInfo` is
left alone, it is no part of the Multi-STA variant. -/
def readOver (old h : CtrlBAckResponseHeader) (k : ℕ) : CtrlBAckResponseHeader where
  baAckPolicy := h.baAckPolicy
  baType := ⟨.multiSta, (List.range k).map h.decodedLen⟩
  tidInfo := old.tidInfo
  baInfo := (List.range k).map fun i => sent (h.info i)

theorem readOver_succ (old h : CtrlBAckResponseHeader) (k : ℕ) :
    readOver old h (k + 1) = { readOver old h k with
      baType := ⟨.multiSta, (readOver old h k).baType.bitmapLen ++ [h.decodedLen k]⟩
      baInfo := (readOver old h k).baInfo ++ [sent (h.info k)] } := by
  simp [readOver, List.range_succ]

theorem deserializeInfos_serialize {h : CtrlBAckResponseHeader}
    (hv : h.baType.variant = .multiSta) (old : CtrlBAckResponseHeader) (n : ℕ) {k fuel : ℕ}
    (hk : k + n = h.baInfo.length)
    (hs : ∀ i < h.baInfo.length, SentInfo (h.len i) (h.info i)) (hf : n ≤ fuel) :
    deserializeInfos fuel (readOver old h k) ((List.range' k n).flatMap h.serializeInfo) =
      some (readOver old h h.baInfo.length) := by
  induction n generalizing k fuel with
  | zero =>
    obtain rfl : k = h.baInfo.length := by omega
    cases fuel <;> rfl
  | succ n ih =>
    obtain ⟨fuel, rfl⟩ : ∃ f, fuel = f + 1 := ⟨fuel - 1, by omega⟩
    have hlen : (readOver old h k).baType.bitmapLen.length = (readOver old h k).baInfo.length := by
      simp [readOver]
    have hne : h.serializeInfo k ++ (List.range' (k + 1) n).flatMap h.serializeInfo ≠ [] := by
      simp [serializeInfo, writeHtolsbU16]
    rw [List.range'_succ, List.flatMap_cons, deserializeInfos, if_neg hne,
      deserializeInfo_append hv hlen (hs k (by omega)), ← readOver_succ]
    exact ih (by omega) (by omega)

theorem length_serializeInfo (h : CtrlBAckResponseHeader) (i : ℕ) :
    1 ≤ (h.serializeInfo i).length := by
  simp only [serializeInfo, writeHtolsbU16, List.length_append, List.length_cons]
  omega

theorem serialize_multiSta {h : CtrlBAckResponseHeader} (hv : h.baType.variant = .multiSta) :
    h.serialize = some (writeHtolsbU16 h.getBaControl ++
      (List.range h.baInfo.length).flatMap h.serializeInfo) := by
  unfold serialize
  rw [hv]

theorem setBaControl_multiSta {h : CtrlBAckResponseHeader} (hv : h.baType.variant = .multiSta)
    (old : CtrlBAckResponseHeader) :
    old.setBaControl h.getBaControl = some (readOver old h 0) := by
  have hba : h.getBaControl = (if h.baAckPolicy then 0x1 else 0) ||| (0x0b <<< 1) := by
    unfold getBaControl
    rw [hv]
    rfl
  have hbits : ∀ p : Bool,
      decide ((((if p then 0x1 else 0) ||| (0x0b <<< 1)) &&& 0x01) = 1) = p ∧
      ((((if p then 0x1 else 0) ||| (0x0b <<< 1)) >>> 1) &&& 0x0f) = 0x0b := by decide
  obtain ⟨hp, hvar⟩ := hbits h.baAckPolicy
  rw [hba]
  unfold setBaControl
  rw [hp, hvar]
  rfl

theorem deserializeInto_multiSta {h : CtrlBAckResponseHeader}
    (hv : h.baType.variant = .multiSta)
    (hs : ∀ i < h.baInfo.length, SentInfo (h.len i) (h.info i)) (old : CtrlBAckResponseHeader) :
    ∃ bytes, h.serialize = some bytes ∧
      bytes = writeHtolsbU16 h.getBaControl ++
        (List.range h.baInfo.length).flatMap h.serializeInfo ∧
      old.deserializeInto bytes = some (readOver old h h.baInfo.length, bytes.length) := by
  refine ⟨_, serialize_multiSta hv, rfl, ?_⟩
  have hlen : h.baInfo.length ≤ ((List.range h.baInfo.length).flatMap h.serializeInfo).length := by
    generalize h.baInfo.length = n
    induction n with
    | zero => simp
    | succ n ih =>
      have := length_serializeInfo h n
      rw [List.range_succ, List.flatMap_append, List.length_append, List.flatMap_singleton]
      omega
  have hrun := deserializeInfos_serialize hv old h.baInfo.length (Nat.zero_add _) hs hlen
  rw [← List.range_eq_range'] at hrun
  unfold deserializeInto
  rw [readLsbtohU16_write (getBaControl_lt _)]
  simp only [Option.bind_eq_bind, Option.bind_some]
  rw [setBaControl_multiSta hv]
  simp only [Option.bind_some]
  change (deserializeInfos _ (readOver old h 0) _).map _ = _
  rw [hrun, Option.map_some]

theorem deserialize_multiSta {h : CtrlBAckResponseHeader} (hv : h.baType.variant = .multiSta)
    (hs : ∀ i < h.baInfo.length, SoundInfo (h.len i) (h.info i)) :
    ∃ bytes, h.serialize = some bytes ∧
      deserialize bytes = some (h.readBack h.baInfo.length) := by
  obtain ⟨bytes, hb, _, hd⟩ := deserializeInto_multiSta hv (fun i hi => (hs i hi).sentInfo)
    (ofType (.ofVariant .basic))
  have hsame : readOver (ofType (.ofVariant .basic)) h h.baInfo.length =
      h.readBack h.baInfo.length := by
    have hsent : (List.range h.baInfo.length).map (fun i => sent (h.info i)) =
        (List.range h.baInfo.length).map (fun i => decoded (h.info i)) :=
      List.map_congr_left fun i hi => (hs i (List.mem_range.mp hi)).sent_eq
    unfold readOver readBack
    rw [hsent]
    rfl
  exact ⟨bytes, hb, by rw [deserialize_eq, hd, Option.map_some, hsame]⟩

end CtrlBAckResponseHeader
end NetGymSim.Wifi

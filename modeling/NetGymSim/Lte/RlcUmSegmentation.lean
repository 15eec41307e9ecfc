import NetGymSim.Lte.RlcUm

/-!
# Segmentation and reassembly

The pieces of a PDU are SDUs, but for the first one, which may end an SDU, and the last one, which
may begin one. The framing info says which it is, the length indicators cut the data field at
the pieces again, and the reassembler delivers the SDUs that end in the PDU.
-/

namespace NetGymSim.Lte
open NetGymSim.Lib

/-! ### The header of a new PDU -/

namespace LteRlcHeader

section Pushes
variable {h : LteRlcHeader} {k : ℕ}

theorem pushExtensionBit_eq (hext : h.extensionBits = List.replicate k eLiFieldsFollows)
    (hlen : k ≠ 0 → h.headerLength = (2 + pairsLength (k - 1)) % 65536) (e : ℕ) :
    PduHeader.pushExtensionBit h e =
      { h with
        extensionBits := List.replicate k eLiFieldsFollows ++ [e]
        headerLength := (2 + pairsLength k) % 65536 } := by
  show LteRlcHeader.pushExtensionBit h e = _
  unfold LteRlcHeader.pushExtensionBit
  dsimp only
  rw [hext, List.length_replicate]
  cases k with
  | zero => rfl
  | succ k =>
    have hlen' := hlen (Nat.succ_ne_zero k)
    have hstep := pairsLength_succ k
    unfold pushExtensionLength at hstep
    rw [if_pos (by omega)] at hstep
    rw [Nat.add_sub_cancel] at hlen'
    rw [hlen', if_neg (by omega)]
    by_cases hodd : (k + 1 + 1) % 2 ≠ 0
    · rw [if_pos (by omega)] at hstep
      rw [if_pos hodd, hstep, Nat.mod_add_mod, Nat.add_assoc]
    · rw [if_neg (by omega)] at hstep
      rw [if_neg hodd, hstep, Nat.mod_add_mod, Nat.add_assoc]

theorem pushPieces_eq (hext : h.extensionBits = List.replicate k eLiFieldsFollows)
    (hlen : k ≠ 0 → h.headerLength = (2 + pairsLength (k - 1)) % 65536) {lens : List ℕ}
    (hne : lens ≠ []) :
    pushPieces h lens =
      { h with
        extensionBits := extensions (k + lens.length)
        lengthIndicators := h.lengthIndicators ++ lens.dropLast
        headerLength := (2 + pairsLength (k + lens.length - 1)) % 65536 } := by
  induction lens generalizing h k with
  | nil => exact absurd rfl hne
  | cons len lens ih =>
    cases lens with
    | nil =>
      show PduHeader.pushExtensionBit h dataFieldFollows = _
      rw [pushExtensionBit_eq hext hlen, ← extensions_succ]
      simp
    | cons len' lens =>
      show pushPieces (PduHeader.pushLengthIndicator
        (PduHeader.pushExtensionBit h eLiFieldsFollows) len) (len' :: lens) = _
      rw [pushExtensionBit_eq hext hlen, ih (k := k + 1) (List.replicate_succ' ..).symm
        (fun _ => rfl) (List.cons_ne_nil _ _)]
      have hli : (PduHeader.pushLengthIndicator { h with
          extensionBits := List.replicate k eLiFieldsFollows ++ [eLiFieldsFollows]
          headerLength := (2 + pairsLength k) % 65536 } len).lengthIndicators =
            h.lengthIndicators ++ [len] := rfl
      rw [hli, List.append_assoc, List.singleton_append, ← List.dropLast_cons_cons,
        List.length_cons, List.length_cons, List.length_cons,
        show k + 1 + (lens.length + 1) = k + (lens.length + 1 + 1) by omega]
      rfl

end Pushes
end LteRlcHeader

section Framing
variable {pieces : List TxPdu}

theorem framingInfo_and (pieces : List TxPdu) :
    framingInfo pieces &&& 0x03 = framingInfo pieces := by
  unfold framingInfo
  dsimp only
  split_ifs <;> rfl

theorem framingInfo_of {a b : SduStatus} (hfirst : pieces.head?.map TxPdu.status = some a)
    (hlast : pieces.getLast?.map TxPdu.status = some b) :
    framingInfo pieces =
      (if a = .fullSdu ∨ a = .firstSegment then firstByte else noFirstByte) |||
        (if b = .fullSdu ∨ b = .lastSegment then lastByte else noLastByte) := by
  unfold framingInfo
  rw [hfirst, hlast]
  rfl

theorem cutPieces_dataOf (hne : pieces ≠ []) :
    cutPieces (extensions pieces.length) (lengths pieces).dropLast (dataOf pieces) =
      pieces.map TxPdu.pdu := by
  induction pieces with
  | nil => exact absurd rfl hne
  | cons p pieces ih =>
    cases pieces with
    | nil => simp [extensions, cutPieces, dataOf, dataFieldFollows]
    | cons q pieces =>
      have hrest := ih (List.cons_ne_nil _ _)
      rw [List.length_cons, List.length_cons, extensions, cutPieces, if_neg (by decide),
        dataOf_cons]
      have hli : (lengths (p :: q :: pieces)).dropLast =
          p.pdu.length :: (lengths (q :: pieces)).dropLast := rfl
      rw [hli, List.headD_cons, List.tail_cons]
      dsimp only
      rw [List.take_left, List.drop_left, ← List.length_cons, hrest]
      rfl

/-! ### What is cut from whole SDUs -/

def wholeSdu (p : List ℕ) : TxPdu := ⟨p, .fullSdu⟩

theorem Cut.of_full {sdus : List (List ℕ)} {after : List TxPdu}
    (h : Cut (sdus.map wholeSdu) pieces after) :
    (∃ done rest, done ≠ [] ∧ sdus = done ++ rest ∧ pieces = done.map wholeSdu ∧
        after = rest.map wholeSdu) ∨
      ∃ done p rest n, 0 < n ∧ n < p.length ∧ sdus = done ++ p :: rest ∧
        pieces = done.map wholeSdu ++ [⟨p.take n, .firstSegment⟩] ∧
        after = ⟨p.drop n, .lastSegment⟩ :: rest.map wholeSdu := by
  generalize hbefore : sdus.map wholeSdu = before at h
  induction h generalizing sdus with
  | last first behind =>
    obtain ⟨p, rest, rfl, rfl, rfl⟩ := List.map_eq_cons_iff.mp hbefore
    exact .inl ⟨[p], rest, List.cons_ne_nil _ _, rfl, rfl, rfl⟩
  | @part first behind n hpos hlt =>
    obtain ⟨p, rest, rfl, rfl, rfl⟩ := List.map_eq_cons_iff.mp hbefore
    exact .inr ⟨[], p, rest, n, hpos, hlt, rfl, rfl, rfl⟩
  | @more first behind pieces after hcut ih =>
    obtain ⟨p, rest, rfl, rfl, rfl⟩ := List.map_eq_cons_iff.mp hbefore
    rcases ih rfl with ⟨done, rest', -, rfl, rfl, rfl⟩ |
      ⟨done, q, rest', n, hpos, hlt, rfl, rfl, rfl⟩
    · exact .inl ⟨p :: done, rest', List.cons_ne_nil _ _, rfl, rfl, rfl⟩
    · exact .inr ⟨p :: done, q, rest', n, hpos, hlt, rfl, rfl, rfl⟩

theorem head?_status_map_wholeSdu {done : List (List ℕ)} (hne : done ≠ []) :
    (done.map wholeSdu).head?.map TxPdu.status = some .fullSdu := by
  obtain ⟨p, ps, rfl⟩ := List.exists_cons_of_ne_nil hne
  rfl

theorem getLast?_status_map_wholeSdu {done : List (List ℕ)} (hne : done ≠ []) :
    (done.map wholeSdu).getLast?.map TxPdu.status = some .fullSdu := by
  rw [List.getLast?_map, Option.map_map, List.getLast?_eq_some_getLast hne]
  rfl

theorem framingInfo_full {done : List (List ℕ)} (hne : done ≠ []) :
    framingInfo (done.map wholeSdu) = firstByte ||| lastByte :=
  framingInfo_of (head?_status_map_wholeSdu hne) (getLast?_status_map_wholeSdu hne)

theorem framingInfo_begun (done : List (List ℕ)) (piece : List ℕ) :
    framingInfo (done.map wholeSdu ++ [⟨piece, .firstSegment⟩]) = firstByte ||| noLastByte := by
  have hlast : (done.map wholeSdu ++ [(⟨piece, .firstSegment⟩ : TxPdu)]).getLast?.map TxPdu.status =
      some .firstSegment := by
    rw [List.getLast?_concat]
    rfl
  cases done with
  | nil => exact framingInfo_of (a := .firstSegment) rfl hlast
  | cons p done => exact framingInfo_of (a := .fullSdu) rfl hlast

theorem framingInfo_ended (t : List ℕ) (done : List (List ℕ)) :
    framingInfo (⟨t, .lastSegment⟩ :: done.map wholeSdu) = noFirstByte ||| lastByte := by
  cases done with
  | nil => rfl
  | cons p done =>
    apply framingInfo_of (a := .lastSegment) (b := .fullSdu) rfl
    rw [List.map_cons, List.getLast?_cons_cons, ← List.map_cons]
    exact getLast?_status_map_wholeSdu (List.cons_ne_nil _ _)

theorem framingInfo_ended_begun (t : List ℕ) (done : List (List ℕ)) (piece : List ℕ) :
    framingInfo (⟨t, .lastSegment⟩ :: (done.map wholeSdu ++ [⟨piece, .firstSegment⟩])) =
      noFirstByte ||| noLastByte := by
  apply framingInfo_of (a := .lastSegment) (b := .firstSegment) rfl
  rw [← List.cons_append, List.getLast?_concat]
  rfl

end Framing

namespace LteRlcUm
open LteRlcHeader

/-- What the header of a new PDU holds that takes the given pieces. -/
structure Heads (pieces : List TxPdu) (sequenceNumber : ℕ) (h : LteRlcHeader) : Prop where
  umdPdu : h.UmdPdu
  framingInfo : h.framingInfo = framingInfo pieces
  sequenceNumber : h.sequenceNumber = sequenceNumber
  extensionBits : h.extensionBits = extensions pieces.length
  lengthIndicators : h.lengthIndicators = (lengths pieces).dropLast

theorem newHeader_heads {pieces : List TxPdu} {f : Filling LteRlcHeader}
    (hheader : f.header = pushPieces ({} : LteRlcHeader) (lengths pieces))
    (hdata : f.dataField = pieces) (hne : pieces ≠ [])
    (hshort : ∀ p ∈ pieces.dropLast, p.pdu.length ≤ 2047) (sn : SequenceNumber10) :
    Heads pieces sn.value (newHeader f sn) := by
  have hlens : lengths pieces ≠ [] := fun h => hne (List.map_eq_nil_iff.mp h)
  have hpush := pushPieces_eq (h := ({} : LteRlcHeader)) (k := 0) rfl (fun h => absurd rfl h) hlens
  have hcount : (lengths pieces).length = pieces.length := List.length_map ..
  have hpos : 0 < pieces.length := List.length_pos_iff.mpr hne
  have hli : f.header.lengthIndicators = (lengths pieces).dropLast := by
    rw [hheader, hpush]
    exact List.nil_append _
  have hli' : f.header.lengthIndicators.length = pieces.length - 1 := by
    rw [hli, List.length_dropLast, hcount]
  have hext : f.header.extensionBits = extensions pieces.length := by
    rw [hheader, hpush]
    dsimp only
    rw [hcount, Nat.zero_add]
  have hframing : (newHeader f sn).framingInfo = Lte.framingInfo pieces := by
    rw [← framingInfo_and, ← hdata]
    rfl
  refine ⟨?_, hframing, rfl, hext, hli⟩
  constructor
  case headerLength =>
    show f.header.headerLength = (2 + pairsLength f.header.lengthIndicators.length) % 65536
    rw [hli', hheader, hpush]
    dsimp only
    rw [hcount, Nat.zero_add]
  case framingInfo_lt => exact Nat.lt_succ_of_le Nat.and_le_right
  case sequenceNumber_lt => exact sn.value_lt
  case lengthIndicators_lt =>
    intro li hmem
    have hmem' : li ∈ f.header.lengthIndicators := hmem
    rw [hli, lengths, ← List.map_dropLast] at hmem'
    obtain ⟨piece, hpiece, rfl⟩ := List.mem_map.mp hmem'
    have hle := hshort piece hpiece
    omega
  case extensionBits =>
    show f.header.extensionBits = extensions (f.header.lengthIndicators.length + 1)
    rw [hli', hext, Nat.sub_add_cancel hpos]

end LteRlcUm

/-! ### What the reassembler delivers -/

/-- The entries that are still to be sent and the SDUs that are still to be delivered: all whole,
or all but the first one, whose front the reassembler keeps. -/
inductive Waiting (r : Reassembler) : List TxPdu → List (List ℕ) → Prop
  | full (hstate : r.reassemblingState = .waitingS0Full) (sdus : List (List ℕ)) :
      Waiting r (sdus.map wholeSdu) sdus
  | begun {kept : List ℕ} (hstate : r.reassemblingState = .waitingSiSf)
      (hkept : r.keepS0 = some kept) (t : List ℕ) (rest : List (List ℕ)) :
      Waiting r (⟨t, .lastSegment⟩ :: rest.map wholeSdu) ((kept ++ t) :: rest)

section Reassemble
variable {r : Reassembler} {before pieces after : List TxPdu} {pending : List (List ℕ)} {n : ℕ}

theorem map_pdu_wholeSdu (done : List (List ℕ)) : (done.map wholeSdu).map TxPdu.pdu = done := by
  rw [List.map_map]
  exact List.map_id done

/-- The pieces complete the SDUs that end in them. -/
structure Completes (r r' : Reassembler) (after : List TxPdu) (pending : List (List ℕ)) :
    Prop where
  sdus : ∃ done rest, pending = done ++ rest ∧ r'.delivered = r.delivered ++ done ∧
    Waiting r' after rest
  sdusBuffer : r'.sdusBuffer = []
  expectedSeqNumber : r'.expectedSeqNumber = r.expectedSeqNumber

theorem Waiting.inSequence (hw : Waiting r before pending)
    (hpieces : r.sdusBuffer = pieces.map TxPdu.pdu) (hcut : Cut before pieces after) :
    Completes r (r.inSequence true (framingInfo pieces)) after pending := by
  cases hw with
  | full hstate =>
    rcases hcut.of_full with ⟨done, rest, hne, rfl, rfl, rfl⟩ |
      ⟨done, p, rest, k, hpos, hlt, rfl, rfl, rfl⟩
    · rw [map_pdu_wholeSdu] at hpieces
      rw [framingInfo_full hne, Reassembler.inSequence_full hstate]
      refine ⟨⟨done, rest, rfl, ?_, .full rfl rest⟩, rfl, rfl⟩
      rw [← hpieces]
      rfl
    · rw [List.map_append, map_pdu_wholeSdu, List.map_singleton] at hpieces
      rw [framingInfo_begun, Reassembler.inSequence_begun hstate]
      refine ⟨⟨done, p :: rest, rfl, ?_, ?_⟩, rfl, rfl⟩
      · show r.delivered ++ r.sdusBuffer.dropLast = r.delivered ++ done
        rw [hpieces, List.dropLast_concat]
      · have hkept : r.deliverKeepLast.keepS0 = some (p.take k) := by
          show r.sdusBuffer.getLast? = _
          rw [hpieces, List.getLast?_concat]
        have hw := Waiting.begun (r := r.deliverKeepLast) rfl hkept (p.drop k) rest
        rwa [List.take_append_drop] at hw
  | @begun kept hstate hkept t rest =>
    have hends : ∀ done, r.sdusBuffer = t :: done →
        r.deliverKept.delivered = r.delivered ++ [kept ++ t] ∧
          r.deliverKept.sdusBuffer = done := by
      intro done hbuffer
      unfold Reassembler.deliverKept Reassembler.keepFront Reassembler.deliver
      dsimp only
      rw [hbuffer, hkept]
      exact ⟨rfl, rfl⟩
    have hended : ∀ done after', pieces = ⟨t, .lastSegment⟩ :: done.map wholeSdu →
        rest = done ++ after' → after = after'.map wholeSdu →
          Completes r (r.inSequence true (framingInfo pieces)) after ((kept ++ t) :: rest) := by
      intro done after' hp hrest hafter
      subst hp hrest hafter
      rw [List.map_cons, map_pdu_wholeSdu] at hpieces
      obtain ⟨hdelivered, hbuffer⟩ := hends done hpieces
      rw [framingInfo_ended, Reassembler.inSequence_ended hstate]
      refine ⟨⟨(kept ++ t) :: done, after', rfl, ?_, .full rfl after'⟩, rfl, rfl⟩
      show r.deliverKept.delivered ++ r.deliverKept.sdusBuffer = _
      rw [hdelivered, hbuffer, List.append_assoc]
      rfl
    cases hcut with
    | last => exact hended [] rest rfl rfl rfl
    | @part _ _ k hpos hlt =>
      have hframing : framingInfo [(⟨t.take k, .middleSegment⟩ : TxPdu)] =
          noFirstByte ||| noLastByte := rfl
      have hone : r.sdusBuffer = [t.take k] := hpieces
      show Completes r (r.inSequence true (framingInfo [⟨t.take k, .middleSegment⟩]))
        (⟨t.drop k, .lastSegment⟩ :: rest.map wholeSdu) _
      rw [hframing, Reassembler.inSequence_ended_begun hstate, if_pos (by rw [hone]; rfl)]
      have hkept' : r.keepFront.keepS0 = some (kept ++ t.take k) := by
        unfold Reassembler.keepFront
        rw [hkept, hone]
        rfl
      have hw := Waiting.begun (r := r.keepFront) hstate hkept' (t.drop k) rest
      rw [List.append_assoc, List.take_append_drop] at hw
      refine ⟨⟨[], _, rfl, (List.append_nil _).symm, hw⟩, ?_, rfl⟩
      show r.sdusBuffer.tail = []
      rw [hone]
      rfl
    | more _ hcut =>
      rcases hcut.of_full with ⟨done, rest', -, hrest, rfl, rfl⟩ |
        ⟨done, p, rest', k, hpos, hlt, rfl, rfl, rfl⟩
      · exact hended done rest' rfl hrest rfl
      · rw [List.map_cons, List.map_append, map_pdu_wholeSdu, List.map_singleton] at hpieces
        obtain ⟨hdelivered, hbuffer⟩ := hends _ hpieces
        have hlong : ¬ r.sdusBuffer.length = 1 := by
          rw [hpieces, List.length_cons, List.length_append, List.length_singleton]
          omega
        rw [framingInfo_ended_begun, Reassembler.inSequence_ended_begun hstate, if_neg hlong]
        refine ⟨⟨(kept ++ t) :: done, p :: rest', rfl, ?_, ?_⟩, rfl, rfl⟩
        · show r.deliverKept.delivered ++ r.deliverKept.sdusBuffer.dropLast = _
          rw [hdelivered, hbuffer, List.dropLast_concat, List.append_assoc]
          rfl
        · have hkept' : r.deliverKept.deliverKeepLast.keepS0 = some (p.take k) := by
            show r.deliverKept.sdusBuffer.getLast? = _
            rw [hbuffer, List.getLast?_concat]
          have hw := Waiting.begun (r := r.deliverKept.deliverKeepLast) rfl hkept' (p.drop k) rest'
          rwa [List.take_append_drop] at hw

theorem Waiting.congr {r' : Reassembler} (hw : Waiting r before pending)
    (hstate : r'.reassemblingState = r.reassemblingState) (hkept : r'.keepS0 = r.keepS0) :
    Waiting r' before pending := by
  cases hw with
  | full h => exact .full (hstate.trans h) _
  | begun h hk t rest => exact .begun (hstate.trans h) (hkept.trans hk) t rest

theorem Waiting.append (hw : Waiting r before pending) (p : List ℕ) :
    Waiting r (before ++ [wholeSdu p]) (pending ++ [p]) := by
  cases hw with
  | full h =>
    have hw' := Waiting.full h (pending ++ [p])
    rwa [List.map_append, List.map_singleton] at hw'
  | begun h hk t rest =>
    have hw' := Waiting.begun h hk t (rest ++ [p])
    rwa [List.map_append, List.map_singleton] at hw'

theorem dataOf_map_wholeSdu (sdus : List (List ℕ)) :
    dataOf (sdus.map wholeSdu) = sdus.flatten := by
  rw [dataOf, List.flatMap_map, ← List.flatMap_id]
  rfl

theorem Waiting.kept_lt (hw : Waiting r before pending) (hq : ∀ t ∈ before, Queued t) :
    ∃ k, pending.flatten.length = k + (dataOf before).length ∧
      ∀ p ∈ pending.head?, k < p.length := by
  cases hw with
  | full =>
    refine ⟨0, by rw [dataOf_map_wholeSdu, Nat.zero_add], fun p hp => ?_⟩
    cases pending with
    | nil => cases hp
    | cons q rest =>
      obtain rfl := Option.some.inj hp
      exact List.length_pos_iff.mpr (hq (wholeSdu q) List.mem_cons_self).1
  | @begun kept _ _ t rest =>
    refine ⟨kept.length, ?_, fun p hp => ?_⟩
    · rw [dataOf_cons, dataOf_map_wholeSdu, List.flatten_cons, List.length_append,
        List.length_append, List.length_append, Nat.add_assoc]
    · obtain rfl := Option.some.inj hp
      have hpos : 0 < t.length :=
        List.length_pos_iff.mpr (hq ⟨t, .lastSegment⟩ List.mem_cons_self).1
      rw [List.length_append]
      omega

theorem Waiting.reassemble (hw : Waiting r before pending) (hempty : r.sdusBuffer = [])
    (hsn : r.expectedSeqNumber = n) (hcut : Cut before pieces after) :
    Completes { r with expectedSeqNumber := (n + 1) % 1024 }
      (r.reassemble true (framingInfo pieces) n (extensions pieces.length)
        (lengths pieces).dropLast (dataOf pieces)) after pending := by
  rw [Reassembler.reassemble_expected hsn hempty, cutPieces_dataOf hcut.pieces_ne_nil]
  obtain ⟨hsdus, hbuffer, hexpected⟩ := Waiting.inSequence (r := { r with
    expectedSeqNumber := (n + 1) % 1024
    sdusBuffer := pieces.map TxPdu.pdu }) (hw.congr rfl rfl) rfl hcut
  exact ⟨hsdus, hbuffer, hexpected⟩

end Reassemble
end NetGymSim.Lte

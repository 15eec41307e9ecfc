import NetGymSim.Gma.ControlSteps

/-!
# Links of a control message

A TSU is stored with connection id 0 while its copies go over the links that have a weight
in the split vector. When it is given up, the link of the stored header is taken for
failed: it is one the message went over exactly when that link has a weight.
-/

namespace NetGymSim.Gma
open NetGymSim.Lib
namespace Endpoint

def linkTargets (links : LinkIds) (header : MxControlHeader) : List Cid :=
  match header.type with
  | .tsu => ((links.list.zip header.kVector).filter fun p => p.2 ≠ 0).map Prod.fst
  | _ => [header.connectionId]

def sentLinks (s : Endpoint) (ident : ℕ) : List Cid :=
  s.log.flatMap fun
    | .sent i copies => if i = ident then copies.map MxControlHeader.connectionId else []
    | _ => []

def NamesLoadedLink (links : LinkIds) (header : MxControlHeader) : Prop :=
  header.type = .tsu →
    ∃ weight ≠ 0, (header.connectionId, weight) ∈ links.list.zip header.kVector

section Targets
variable {s : Endpoint} {ident : ℕ} {cid : Cid}

theorem copies_links (s : Endpoint) (header : MxControlHeader) :
    (s.copies header).map MxControlHeader.connectionId = linkTargets s.linkParamsMap header := by
  unfold copies linkTargets
  cases header.type with
  | tsu => simp only [List.map_map]; rfl
  | _ => rfl

theorem mem_linkTargets (links : LinkIds) (header : MxControlHeader) :
    header.connectionId ∈ linkTargets links header ↔ NamesLoadedLink links header := by
  unfold linkTargets NamesLoadedLink
  cases header.type with
  | tsu => simp [and_comm]
  | _ => simp

theorem mem_sentLinks : cid ∈ s.sentLinks ident ↔
    ∃ copies, .sent ident copies ∈ s.log ∧ cid ∈ copies.map MxControlHeader.connectionId := by
  unfold sentLinks
  rw [List.mem_flatMap]
  constructor
  · rintro ⟨rec, hrec, hcid⟩
    cases rec with
    | sent i copies =>
      dsimp only at hcid
      split_ifs at hcid with hi
      · exact ⟨copies, hi ▸ hrec, hcid⟩
      · exact absurd hcid List.not_mem_nil
    | _ => exact absurd hcid List.not_mem_nil
  · rintro ⟨copies, hrec, hcid⟩
    exact ⟨_, hrec, by simpa using hcid⟩

end Targets

def Fits (idents : ℕ) (links : LinkIds) (target : ℕ → List Cid) : CtrlRecord → Prop
  | .sent ident copies =>
      ident < idents ∧ copies.map MxControlHeader.connectionId = target ident
  | .givenUp ident header cid =>
      ident < idents ∧ cid = header.connectionId ∧ linkTargets links header = target ident
  | _ => True

/-- Every message has its set of links, which its transmissions go over and its header
stands for from the first to the last of them. -/
structure LinksFixed (s : Endpoint) (target : ℕ → List Cid) : Prop where
  queue : ∀ (key : ℕ) (item : TexedCtrQueueItem), s.txedCtrQueue[key]? = some item →
    item.ident < s.idents ∧
      linkTargets s.linkParamsMap item.mxControlHeader = target item.ident
  log : ∀ rec ∈ s.log, Fits s.idents s.linkParamsMap target rec
  some_sent : ∀ ident < s.idents, ∃ copies, .sent ident copies ∈ s.log

namespace LinksFixed
variable {s s' : Endpoint} {target : ℕ → List Cid} {csn : ℕ} {item : TexedCtrQueueItem}

theorem congr (h : LinksFixed s target) (hq : s'.txedCtrQueue = s.txedCtrQueue)
    (hi : s'.idents = s.idents) (hl : s'.log = s.log) (hm : s'.linkParamsMap = s.linkParamsMap) :
    LinksFixed s' target := by
  refine ⟨?_, ?_, ?_⟩
  · rw [hq, hi, hm]; exact h.queue
  · rw [hl, hi, hm]; exact h.log
  · rw [hl, hi]; exact h.some_sent

theorem mem_sentLinks_iff (h : LinksFixed s target) {ident : ℕ} (hi : ident < s.idents)
    (cid : Cid) : cid ∈ s.sentLinks ident ↔ cid ∈ target ident := by
  rw [mem_sentLinks]
  constructor
  · rintro ⟨copies, hrec, hcid⟩
    exact (h.log _ hrec).2 ▸ hcid
  · intro hcid
    obtain ⟨copies, hrec⟩ := h.some_sent ident hi
    exact ⟨copies, hrec, (h.log _ hrec).2 ▸ hcid⟩

theorem append (h : LinksFixed s target) (rec : CtrlRecord)
    (hrec : Fits s.idents s.linkParamsMap target rec) :
    LinksFixed { s with log := s.log ++ [rec] } target := by
  refine ⟨h.queue, ?_, ?_⟩
  · intro rec' hm
    rcases List.mem_append.mp hm with hm | hm
    · exact h.log _ hm
    · exact List.mem_singleton.mp hm ▸ hrec
  · intro ident hi
    obtain ⟨copies, hs⟩ := h.some_sent ident hi
    exact ⟨copies, List.mem_append_left _ hs⟩

theorem erase (h : LinksFixed s target) (key : ℕ) :
    LinksFixed { s with txedCtrQueue := s.txedCtrQueue.erase key } target :=
  ⟨fun _ _ hq => h.queue _ _ (erase_some hq).2, h.log, h.some_sent⟩

theorem insert (h : LinksFixed s target) (key : ℕ) (item : TexedCtrQueueItem)
    (hi : item.ident < s.idents)
    (ht : linkTargets s.linkParamsMap item.mxControlHeader = target item.ident) :
    LinksFixed { s with txedCtrQueue := s.txedCtrQueue.insert key item } target := by
  refine ⟨fun key' item' hq => ?_, h.log, h.some_sent⟩
  rcases insert_some hq with ⟨-, rfl⟩ | ⟨-, hq⟩
  · exact ⟨hi, ht⟩
  · exact h.queue key' item' hq

theorem grow (h : LinksFixed s target) (header : MxControlHeader) :
    LinksFixed { s.transmit s.idents header with idents := s.idents + 1 }
      (Function.update target s.idents (linkTargets s.linkParamsMap header)) := by
  have hold : ∀ i < s.idents,
      Function.update target s.idents (linkTargets s.linkParamsMap header) i = target i :=
    fun i hi => Function.update_of_ne (Nat.ne_of_lt hi) _ _
  refine ⟨?_, ?_, ?_⟩
  · intro key item hq
    obtain ⟨hi, ht⟩ := h.queue key item hq
    exact ⟨Nat.lt_succ_of_lt hi, ht.trans (hold _ hi).symm⟩
  · intro rec hm
    rcases List.mem_append.mp hm with hm | hm
    · have hf := h.log rec hm
      cases rec with
      | sent i copies => exact ⟨Nat.lt_succ_of_lt hf.1, hf.2.trans (hold _ hf.1).symm⟩
      | givenUp i hd cid =>
        exact ⟨Nat.lt_succ_of_lt hf.1, hf.2.1, hf.2.2.trans (hold _ hf.1).symm⟩
      | _ => trivial
    · obtain rfl := List.mem_singleton.mp hm
      exact ⟨Nat.lt_succ_self _, by rw [copies_links, Function.update_self]⟩
  · intro ident hi
    rcases Nat.lt_succ_iff_lt_or_eq.mp hi with hi | rfl
    · obtain ⟨copies, hs⟩ := h.some_sent ident hi
      exact ⟨copies, List.mem_append_left _ hs⟩
    · exact ⟨s.copies header, List.mem_append_right _ (List.mem_singleton_self _)⟩

theorem sendCtrlMsg (h : LinksFixed s target) (header : MxControlHeader) (forwarded : Bool) :
    LinksFixed (s.sendCtrlMsg header forwarded)
      (Function.update target s.idents (linkTargets s.linkParamsMap header)) :=
  ((h.grow header).insert header.sequenceNumber ⟨header, _, s.idents, forwarded⟩
    (Nat.lt_succ_self s.idents) (by rw [Function.update_self]; rfl)).congr rfl rfl rfl rfl

theorem markGivenUp (h : LinksFixed s target) (hq : s.txedCtrQueue[csn]? = some item) :
    LinksFixed (s.markGivenUp item) target := by
  obtain ⟨hi, ht⟩ := h.queue _ _ hq
  exact (h.append (.givenUp _ _ _) ⟨hi, rfl, ht⟩).congr rfl rfl rfl rfl

theorem renewItem_targets (s : Endpoint) (item : TexedCtrQueueItem) :
    linkTargets s.linkParamsMap (s.renewItem item).mxControlHeader =
      linkTargets s.linkParamsMap item.mxControlHeader := by
  simp only [renewItem]
  split_ifs <;> rfl

theorem resend (h : LinksFixed s target) (hq : s.txedCtrQueue[csn]? = some item) :
    LinksFixed (s.resend csn item) target := by
  obtain ⟨hi, ht⟩ := h.queue _ _ hq
  have hr := (renewItem_targets s item).trans ht
  exact ((h.append (.sent item.ident (s.copies (s.renewItem item).mxControlHeader))
    ⟨hi, (copies_links s _).trans hr⟩).insert csn (s.renewItem item) hi hr).congr
    rfl rfl rfl rfl

end LinksFixed

theorem linksFixed_keeps : Keeps anyNumber fun s => ∃ target, LinksFixed s target := by
  have hnew : ∀ {s : Endpoint} (header : MxControlHeader), (∃ target, LinksFixed s target) →
      anyNumber.new s → ∃ target, LinksFixed (s.sendNew header) target := by
    rintro s header ⟨target, h⟩ -
    have ht : LinksFixed s.takeNumber target := h.congr rfl rfl rfl rfl
    exact ⟨_, ht.sendCtrlMsg _ _⟩
  refine ⟨?_, ?_, ?_, ?_, ?_, ?_⟩
  · rintro s s' hs ⟨target, h⟩
    exact ⟨target, h.congr hs.queue hs.idents hs.log hs.links⟩
  · exact hnew
  · rintro s header ⟨target, h⟩ -
    exact ⟨_, h.sendCtrlMsg _ _⟩
  · rintro s csn ⟨target, h⟩ - -
    exact ⟨target, h.congr rfl rfl rfl rfl⟩
  · rintro s csn item a ⟨target, h⟩ - hq -
    have hf : LinksFixed (s.fire csn) target := h.congr rfl rfl rfl rfl
    have hq' : (s.fire csn).txedCtrQueue[csn]? = some item := hq
    simp only [retxCtrlMsgExpires, hq']
    split_ifs
    · simp only [giveUp]
      split_ifs
      · obtain ⟨target', h'⟩ :=
          Rule.newAll_keeps hnew ⟨target, hf.markGivenUp hq'⟩ (anyNumber_newAll _ _)
        exact ⟨target', h'.erase csn⟩
      · exact ⟨target, (hf.markGivenUp hq').erase csn⟩
    · exact ⟨target, ((hf.erase csn).append (.testFailed _) trivial).congr rfl rfl rfl rfl⟩
    · exact ⟨target, hf.resend hq'⟩
  · rintro s csn key item sendTime ⟨target, h⟩ -
    exact ⟨target, ((h.erase key).append (.acknowledged _ _) trivial).congr rfl rfl rfl rfl⟩

/-- A message that was given up had the link taken for failed among those it went over
exactly when the stored header names a loaded link. -/
theorem give_up_marks_used_link (config : EndpointConfig) (linkState : LinkState)
    (links : LinkIds) {es : List Event} {s : Endpoint}
    (h : machine.Reaches (start config linkState links) es s) (ident : ℕ)
    (header : MxControlHeader) (cid : Cid) (hg : .givenUp ident header cid ∈ s.log) :
    cid ∈ s.sentLinks ident ↔ NamesLoadedLink s.linkParamsMap header := by
  have hinit : ∃ target, LinksFixed (start config linkState links) target := by
    refine ⟨fun _ => [], ?_, ?_, ?_⟩
    · intro key item hq
      simp [start] at hq
    · exact fun rec hm => absurd hm List.not_mem_nil
    · exact fun ident hi => absurd hi (Nat.not_lt_zero _)
  obtain ⟨target, hl⟩ := linksFixed_keeps.run_any hinit h
  obtain ⟨hi, rfl, ht⟩ := hl.log _ hg
  rw [hl.mem_sentLinks_iff hi, ← ht, mem_linkTargets]

def twoLinks : LinkIds := ⟨[0, 2], LinkIds.pair_sorted⟩

def lostProbe : List Event := .probe 1 :: List.replicate 6 (.expire 1 {})

def lostTsu : List Event :=
  .tsu { update := true, splitIndexList := [0, 1] } :: List.replicate 6 (.expire 0 {})

theorem give_up_marks_used_link_probe :
    ∃ s header, machine.Reaches (start {} { cidList := [0, 2] } twoLinks) lostProbe s ∧
      .givenUp 1 header 2 ∈ s.log ∧
      (2 ∈ s.sentLinks 1 ↔ NamesLoadedLink s.linkParamsMap header) := by
  let s := machine.exec (start {} { cidList := [0, 2] } twoLinks) lostProbe
  let header : MxControlHeader :=
    { type := .probe, connectionId := 2, sequenceNumber := 6, probeFlag := 1, rCid := 2 }
  have h : machine.Reaches (start {} { cidList := [0, 2] } twoLinks) lostProbe s :=
    Machine.Permits.reaches (by decide +kernel)
  have hg : .givenUp 1 header 2 ∈ s.log := by decide +kernel
  exact ⟨s, header, h, hg, give_up_marks_used_link _ _ _ h 1 header 2 hg⟩

theorem tsu_give_up_marks_wifi :
    ∃ s header, machine.Reaches (start {} { cidList := [0, 2] } twoLinks) lostTsu s ∧
      .givenUp 0 header wifiCid ∈ s.log ∧ wifiCid ∉ s.sentLinks 0 ∧
      ¬ s.linkMap.linkState.isLinkUp wifiCid := by
  let header : MxControlHeader :=
    { type := .tsu, sequenceNumber := 5, l := 1, kVector := [0, 1], owdVector := [255, 255]
      queueingDelayVector := [255, 255] }
  refine ⟨_, header, Machine.Permits.reaches (by decide +kernel), ?_, ?_, ?_⟩
  · decide +kernel
  · decide +kernel
  · decide +kernel

end Endpoint
end NetGymSim.Gma

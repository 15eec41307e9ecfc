import NetGymSim.Gma.TsuSteps
import NetGymSim.Gma.OwdBaseline

/-!
# One TSU and the TSAs that answer it

The copies of a TSU and of its retransmissions reach the sender in any order, any number of
times or never, and so do the TSAs the measuring side. Whatever else happens at both ends
happens in between, other TSUs included. `arrivals` records what every copy that arrives
does to the delays, `answers` the TSAs for them and `handedOver` those that reach
`MeasureCycleStartByTsa`. A reverse TSU is a message of its own once the server has turned
it round.
-/

namespace NetGymSim.Gma
open NetGymSim.Lib

structure Arrival where
  header : MxControlHeader
  before : Cid → ℕ
  after : Cid → ℕ

def Arrival.change (x : Arrival) (cid : Cid) : ℤ := x.after cid - x.before cid

structure TsuNet where
  ident : ℕ
  measuring : Endpoint
  sender : Endpoint
  arrivals : List Arrival := []
  answers : List MxControlHeader := []
  handedOver : List MxControlHeader := []

def Endpoint.Event.received : Endpoint.Event → Option MxControlHeader
  | .recv header _ => some header
  | _ => none

namespace TsuNet

inductive Event
  | measuring (e : Endpoint.Event)
  | sender (e : Endpoint.Event)
  | tsu (header : MxControlHeader) (a : Answers)
  | tsa (k : ℕ) (a : Answers)

def copies (n : TsuNet) : List MxControlHeader := n.measuring.sentCopies n.ident

def cidList (n : TsuNet) : List Cid := n.sender.linkMap.linkState.cidList

def enabled (n : TsuNet) : Event → Prop
  | .measuring e => n.measuring.enabled e ∧ ∀ h ∈ e.received, h ∉ n.answers
  | .sender e => n.sender.enabled e ∧ ∀ h ∈ e.received, h ∉ n.copies
  | .tsu header a => header ∈ n.copies ∧ header.type = .tsu ∧ header.reverseFlag = 0 ∧
      n.sender.enabled (.recv header a)
  | .tsa k _ => k < n.answers.length

instance enabled.decidable (n : TsuNet) : (e : Event) → Decidable (n.enabled e)
  | .measuring e =>
      inferInstanceAs (Decidable (n.measuring.enabled e ∧ ∀ h ∈ e.received, h ∉ n.answers))
  | .sender e => inferInstanceAs (Decidable (n.sender.enabled e ∧ ∀ h ∈ e.received, h ∉ n.copies))
  | .tsu header a => inferInstanceAs (Decidable (header ∈ n.copies ∧ header.type = .tsu ∧
      header.reverseFlag = 0 ∧ n.sender.enabled (.recv header a)))
  | .tsa k _ => inferInstanceAs (Decidable (k < n.answers.length))

def arrive (n : TsuNet) (header : MxControlHeader) (a : Answers) : TsuNet :=
  let sender := n.sender.next (.recv header a)
  { n with
    sender
    arrivals := n.arrivals ++ [⟨header, n.sender.emulateDelay, sender.emulateDelay⟩]
    answers := n.answers ++ sender.replies.drop n.sender.replies.length }

def answer (n : TsuNet) (header : MxControlHeader) (a : Answers) : TsuNet :=
  let measuring := n.measuring.next (.recv header a)
  { n with
    measuring
    handedOver := n.handedOver ++ measuring.handedOver.drop n.measuring.handedOver.length }

def next (n : TsuNet) : Event → TsuNet
  | .measuring e => { n with measuring := n.measuring.next e }
  | .sender e => { n with sender := n.sender.next e }
  | .tsu header a => n.arrive header a
  | .tsa k a =>
      match n.answers[k]? with
      | some header => n.answer header a
      | none => n

def machine : Machine TsuNet Event := ⟨enabled, next⟩

instance machine.decidable (n : TsuNet) (e : Event) : Decidable (machine.enabled n e) :=
  enabled.decidable n e

def start (ident : ℕ) (measuring sender : Endpoint) : TsuNet := { ident, measuring, sender }

def totalChange (n : TsuNet) (cid : Cid) : ℤ := (n.arrivals.map fun x => x.change cid).sum

/-- Every copy carries one vector; the first one to arrive applies it, no later one changes
a delay, and every TSA handed over reports what was changed in all. -/
structure AppliedOnce (n : TsuNet) : Prop where
  once : ∃ vector, (∀ h ∈ n.copies, h.owdVector = vector) ∧
    ∀ first rest, n.arrivals = first :: rest →
      first.after = (emulateDelays n.cidList vector first.before).1 ∧
        ∀ x ∈ rest, x.after = x.before
  handed : ∀ h ∈ n.handedOver, ∀ (i : ℕ) (cid : Cid), n.cidList[i]? = some cid →
    decodeOffset (h.owdVector.getD i 127) = n.totalChange cid

def Uniform (owdVector : List ℕ) : Prop :=
  ∀ a ∈ owdVector, ∀ b ∈ owdVector, delayChange a = delayChange b

instance Uniform.decidable (owdVector : List ℕ) : Decidable (Uniform owdVector) :=
  inferInstanceAs (Decidable (∀ a ∈ owdVector, ∀ b ∈ owdVector, _))

/-- The first copy that arrives is new to the sender and no later one is; a TSA that is
handed over says what that of the first copy says. -/
def takenOnce (n : TsuNet) : Event → Prop
  | .tsu header _ =>
      (n.arrivals = [] ∨ n.sender.newTsu header → Roomy n.cidList n.sender.emulateDelay) ∧
      (Uniform header.owdVector ∨ (n.sender.newTsu header ↔ n.arrivals = []))
  | .tsa k _ => ∀ header ∈ n.answers[k]?, n.measuring.handsOver header →
      header.owdVector = (n.answers[0]?.map MxControlHeader.owdVector).getD []
  | _ => True

instance takenOnce.decidable (n : TsuNet) : (e : Event) → Decidable (n.takenOnce e)
  | .tsu header _ => inferInstanceAs (Decidable
      ((n.arrivals = [] ∨ n.sender.newTsu header →
        ∀ cid ∈ n.cidList, n.sender.emulateDelay cid + 127 < 4294967296) ∧
      (Uniform header.owdVector ∨ (n.sender.newTsu header ↔ n.arrivals = []))))
  | .tsa k _ => inferInstanceAs (Decidable (∀ header ∈ n.answers[k]?, _ → _))
  | .measuring _ | .sender _ => inferInstanceAs (Decidable True)

/-- Nothing has arrived, or the first copy was applied and all TSAs of later ones report
nothing that is not so. -/
def FirstApplied (n : TsuNet) (cids : List Cid) : Prop :=
  n.arrivals = [] ∧ n.answers = [] ∨
    ∃ first rest tsa tsas, n.arrivals = first :: rest ∧ n.answers = tsa :: tsas ∧
      (Normal cids first.before ∧ Roomy cids first.before ∧
        cids.length = first.header.owdVector.length) ∧
      first.after = (emulateDelays cids first.header.owdVector first.before).1 ∧
      tsa.owdVector =
        encodeOffsets (emulateDelays cids first.header.owdVector first.before).2 ∧
      ∀ x ∈ rest, x.after = x.before

structure Sound (n : TsuNet) (cids : List Cid) : Prop where
  links : n.cidList = cids
  normal : Normal cids n.sender.emulateDelay
  vectors : ∃ vector, Endpoint.VectorsFixed n.measuring vector
  arrived : ∀ x ∈ n.arrivals, x.header ∈ n.copies
  types : ∀ g ∈ n.answers, g.type = .tsa ∧ g.sequenceNumber < 65536
  first : n.FirstApplied cids
  handed : ∀ h ∈ n.handedOver, ∃ tsa ∈ n.answers[0]?, h.owdVector = tsa.owdVector

namespace Sound
variable {n : TsuNet} {cids : List Cid}

theorem copies_grow (n : TsuNet) (e : Endpoint.Event) (he : n.measuring.enabled e) :
    ∀ h ∈ n.copies, h ∈ (n.measuring.next e).sentCopies n.ident := by
  intro h hm
  obtain ⟨copies, hrec, hh⟩ := Endpoint.mem_sentCopies.mp hm
  exact Endpoint.mem_sentCopies.mpr ⟨copies,
    (Endpoint.recorded_keeps _).step e hrec he (Endpoint.anyNumber_allows _ _), hh⟩

theorem measuring (h : Sound n cids) (e : Endpoint.Event) (he : n.measuring.enabled e) :
    Sound (n.next (.measuring e)) cids :=
  ⟨h.links, h.normal,
    Endpoint.vectorsFixed_keeps.step e h.vectors he (Endpoint.anyNumber_allows _ _),
    fun x hx => copies_grow n e he _ (h.arrived x hx), h.types, h.first, h.handed⟩

theorem sender (h : Sound n cids) (hn : cids.Nodup) (hne : cids ≠ []) (e : Endpoint.Event)
    (he : n.sender.enabled e) : Sound (n.next (.sender e)) cids := by
  obtain ⟨hc, hz⟩ := Endpoint.next_normal e he hn hne h.links h.normal
  exact ⟨hc, hz, h.vectors, h.arrived, h.types, h.first, h.handed⟩

theorem arrive_first (hz : Normal cids n.sender.emulateDelay) (hn : cids.Nodup)
    {header : MxControlHeader}
    {delay : Cid → ℕ} {bytes : List ℕ} (hl : cids.length = header.owdVector.length)
    (hroom : Roomy cids n.sender.emulateDelay)
    (hnew : Uniform header.owdVector ∨ n.sender.newTsu header)
    (hif : if n.sender.newTsu header then
        delay = (emulateDelays cids header.owdVector n.sender.emulateDelay).1 ∧
          bytes = encodeOffsets (emulateDelays cids header.owdVector n.sender.emulateDelay).2
      else delay = n.sender.emulateDelay ∧ bytes = encodeOffsets (cids.map fun _ => 0)) :
    delay = (emulateDelays cids header.owdVector n.sender.emulateDelay).1 ∧
      bytes = encodeOffsets (emulateDelays cids header.owdVector n.sender.emulateDelay).2 := by
  split_ifs at hif with hnt
  · exact hif
  · have hu := emulateDelays_uniform hn hl hroom hz (hnew.resolve_right hnt)
    have hoff := emulateDelays_spec hn hl hroom
    simp only [hu, Int.sub_self] at hoff
    rw [hu, hoff]
    exact hif

theorem arrive_later (hz : Normal cids n.sender.emulateDelay) (hn : cids.Nodup)
    {header : MxControlHeader}
    {delay : Cid → ℕ} {bytes : List ℕ} (hl : cids.length = header.owdVector.length)
    (hroom : n.sender.newTsu header → Roomy cids n.sender.emulateDelay)
    (hold : Uniform header.owdVector ∨ ¬ n.sender.newTsu header)
    (hif : if n.sender.newTsu header then
        delay = (emulateDelays cids header.owdVector n.sender.emulateDelay).1 ∧
          bytes = encodeOffsets (emulateDelays cids header.owdVector n.sender.emulateDelay).2
      else delay = n.sender.emulateDelay ∧ bytes = encodeOffsets (cids.map fun _ => 0)) :
    delay = n.sender.emulateDelay := by
  split_ifs at hif with hnt
  · have huni : Uniform header.owdVector := hold.resolve_right (not_not.mpr hnt)
    exact hif.1.trans (emulateDelays_uniform hn hl (hroom hnt) hz huni)
  · exact hif.1

theorem tsu (h : Sound n cids) (hn : cids.Nodup) (hne : cids ≠ []) {header : MxControlHeader}
    {a : Answers} (he : n.enabled (.tsu header a)) (hok : n.takenOnce (.tsu header a)) :
    Sound (n.next (.tsu header a)) cids := by
  obtain ⟨hm, ht, hr, hen⟩ := he
  obtain ⟨hroom, htaken⟩ := hok
  obtain ⟨hc, hz⟩ := Endpoint.next_normal _ hen hn hne h.links h.normal
  obtain ⟨g, hg, hrep, hif⟩ := Endpoint.recv_tsu ht hr a h.links
  have hl : cids.length = header.owdVector.length := h.links ▸ hen.2 ht
  rw [h.links] at hroom
  have hans : (n.next (.tsu header a)).answers = n.answers ++ [g] := by
    simp [next, arrive, hrep]
  refine ⟨hc, hz, h.vectors, ?_, ?_, ?_, ?_⟩
  · intro x hx
    rcases List.mem_append.mp hx with hx | hx
    · exact h.arrived x hx
    · rw [List.mem_singleton.mp hx]
      exact hm
  · intro g' hg'
    rw [hans] at hg'
    rcases List.mem_append.mp hg' with hg' | hg'
    · exact h.types g' hg'
    · rw [List.mem_singleton.mp hg', hg.2]
      exact ⟨hg.1, hen.1⟩
  · rcases h.first with ⟨harr, hno⟩ | ⟨first, rest, tsa, tsas, harr, hno, hpre, hf, hv, hrest⟩
    · obtain ⟨hd, hb⟩ := arrive_first h.normal hn hl (hroom (.inl harr))
        (htaken.imp_right fun hiff => hiff.mpr harr) hif
      refine .inr ⟨⟨header, n.sender.emulateDelay, (n.sender.next (.recv header a)).emulateDelay⟩,
        [], g, [], ?_, ?_, ⟨h.normal, hroom (.inl harr), hl⟩, hd, hb, by simp⟩
      · simp only [next, arrive, harr, List.nil_append]
      · rw [hans, hno, List.nil_append]
    · have hd := arrive_later h.normal hn hl (fun hnt => hroom (.inr hnt))
        (htaken.imp_right fun hiff hnt => by simp [harr] at hiff; exact hiff hnt) hif
      refine .inr ⟨first, rest ++ [⟨header, n.sender.emulateDelay,
        (n.sender.next (.recv header a)).emulateDelay⟩], tsa, tsas ++ [g], ?_, ?_, hpre,
        hf, hv, ?_⟩
      · simp only [next, arrive, harr, List.cons_append]
      · rw [hans, hno, List.cons_append]
      · intro x hx
        rcases List.mem_append.mp hx with hx | hx
        · exact hrest x hx
        · rw [List.mem_singleton.mp hx]
          exact hd
  · intro h' hh
    obtain ⟨tsa, hm', hv⟩ := h.handed h' hh
    refine ⟨tsa, ?_, hv⟩
    rw [hans]
    cases hA : n.answers with
    | nil => simp [hA] at hm'
    | cons => simpa [hA] using hm'

theorem tsa (h : Sound n cids) {k : ℕ} {a : Answers} (he : n.enabled (.tsa k a))
    (hok : n.takenOnce (.tsa k a)) : Sound (n.next (.tsa k a)) cids := by
  have hk : n.answers[k]? = some n.answers[k] := List.getElem?_eq_getElem he
  have hmem : n.answers[k] ∈ n.answers := List.getElem_mem he
  obtain ⟨htype, hcsn⟩ := h.types _ hmem
  have hen : n.measuring.enabled (.recv n.answers[k] a) :=
    ⟨hcsn, fun htsu => by simp [htype] at htsu⟩
  have hnext : n.next (.tsa k a) = n.answer n.answers[k] a := by
    simp only [next, hk]
  rw [hnext]
  refine ⟨h.links, h.normal, ?_, ?_, h.types, h.first, ?_⟩
  · exact Endpoint.vectorsFixed_keeps.step _ h.vectors hen (Endpoint.anyNumber_allows _ _)
  · exact fun x hx => copies_grow n _ hen _ (h.arrived x hx)
  · intro h' hh
    simp only [answer, Endpoint.recv_tsa htype, List.drop_left] at hh
    rcases List.mem_append.mp hh with hh | hh
    · exact h.handed h' hh
    · split_ifs at hh with hover
      · rw [List.mem_singleton.mp hh]
        have hfirst := List.getElem?_eq_getElem (Nat.zero_lt_of_lt he)
        exact ⟨_, hfirst, (hok _ hk hover).trans (by rw [hfirst]; rfl)⟩
      · exact absurd hh List.not_mem_nil

theorem appliedOnce (h : Sound n cids) (hn : cids.Nodup) : AppliedOnce n := by
  obtain ⟨vector, hvec⟩ := h.vectors
  have hcopies : ∀ g ∈ n.copies, g.owdVector = vector n.ident := by
    intro g hg
    obtain ⟨copies, hrec, hm⟩ := Endpoint.mem_sentCopies.mp hg
    exact (hvec.log _ _ hrec).2 g hm
  refine ⟨⟨vector n.ident, hcopies, ?_⟩, ?_⟩
  · intro first rest harr
    rcases h.first with ⟨hnil, -⟩ | ⟨first', rest', -, -, harr', -, -, hf, -, hrest⟩
    · simp [hnil] at harr
    · obtain ⟨rfl, rfl⟩ := List.cons.inj (harr.symm.trans harr')
      rw [← hcopies _ (h.arrived first (by simp [harr])), h.links]
      exact ⟨hf, hrest⟩
  · intro g hg i cid hi
    obtain ⟨tsa, htsa, hv⟩ := h.handed g hg
    rcases h.first with
      ⟨-, hnil⟩ | ⟨first, rest, tsa', tsas, harr, hans, ⟨hz, hr, hl⟩, hf, hb, hrest⟩
    · simp [hnil] at htsa
    · obtain rfl : tsa' = tsa := by simpa [hans] using htsa
      have hzero : (rest.map fun x => x.change cid) = rest.map fun _ => 0 :=
        List.map_congr_left fun x hx => by rw [Arrival.change, hrest x hx, Int.sub_self]
      have hoff := OwdNet.Accounts.offsetAt_encode hn hl hz hr (h.links ▸ hi)
      rw [OwdNet.offsetAt] at hoff
      rw [hv, hb, hoff, totalChange, harr, List.map_cons, List.sum_cons, hzero, Arrival.change, hf]
      simp

end Sound

/-- The TSU asks for 10 ms more on the NR link and goes over both links. -/
def measuringSide : Endpoint :=
  Endpoint.machine.exec (.start {} { cidList := [0, 2] } ⟨[0, 2], LinkIds.pair_sorted⟩)
    [.probe 1, .tsu { update := true, splitIndexList := [1, 1], minOwdLongTerm := [0, 10] }]

def senderSide : Endpoint := .start {} { cidList := [0, 2] } ⟨[0, 2], LinkIds.pair_sorted⟩

def tsuCopy (csn : ℕ) (cid : Cid) : MxControlHeader :=
  { type := .tsu, connectionId := cid, sequenceNumber := csn, linkStatus := 1, l := 1
    kVector := [1, 1], owdVector := [0, 10], queueingDelayVector := [255, 255] }

def takenRun : List Event :=
  [.tsu (tsuCopy 2 2) {}, .tsu (tsuCopy 2 0) {}, .measuring (.expire 2 {}), .tsa 0 {}]

end TsuNet
end NetGymSim.Gma

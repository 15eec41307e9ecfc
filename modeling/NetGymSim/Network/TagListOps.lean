import NetGymSim.Network.TagListSteps

/-!
# The operations on packet tag lists

Each operation succeeds on counted chains: no assertion fails, no cell is used or freed after it
was freed. What it does to its list is said in terms of the tags the list shows.
-/

namespace NetGymSim.Network
open NetGymSim.Lib

namespace PacketTagLists
variable {s s' : PacketTagLists} {i a tid fuel : ℕ} {pre post : List ℕ} {prevNext : Link}
  {c : TagData} {p q : Option ℕ} {tags : List Tag} {tag : Tag}

def changeFirst (tid : ℕ) (out : Tag → List Tag) : List Tag → List Tag
  | [] => []
  | tag :: tags => if tag.tid = tid then out tag ++ tags else tag :: changeFirst tid out tags

theorem changeFirst_append {out : Tag → List Tag} {before : List Tag} (after : List Tag)
    (hbefore : ∀ t ∈ before, t.tid ≠ tid) (htag : tag.tid = tid) :
    changeFirst tid out (before ++ tag :: after) = before ++ out tag ++ after := by
  induction before with
  | nil => simp only [List.nil_append, changeFirst, if_pos htag]
  | cons t before ih =>
    rw [List.cons_append, changeFirst, if_neg (hbefore t List.mem_cons_self),
      ih fun u hu => hbefore u (List.mem_cons_of_mem t hu)]
    rfl

theorem changeFirst_none {out : Tag → List Tag} (h : ∀ t ∈ tags, t.tid ≠ tid) :
    changeFirst tid out tags = tags := by
  induction tags with
  | nil => rfl
  | cons t tags ih =>
    rw [changeFirst, if_neg (h t List.mem_cons_self),
      ih fun u hu => h u (List.mem_cons_of_mem t hu)]

theorem find?_append {before : List Tag} (after : List Tag)
    (hbefore : ∀ t ∈ before, t.tid ≠ tid) (htag : tag.tid = tid) :
    (before ++ tag :: after).find? (fun t => t.tid = tid) = some tag := by
  rw [List.find?_append, List.find?_eq_none.mpr (by simpa using hbefore), Option.none_or,
    List.find?_cons_of_pos (by simpa using htag)]

structure Writes (writer : COWWriter) (good : Tag → Prop) (out : Tag → List Tag)
    (data : Tag → List UInt8) : Prop where
  run : ∀ {s : PacketTagLists} {i a : ℕ} {pre post : List ℕ} {prevNext : Link} {c : TagData}
    (preMerge : Bool), s.Sound → s.Front i pre prevNext (some a) → s.cell a = some c →
    (if preMerge then c.count = 1 else 1 < c.count) → s.Path c.next post → good c.value →
    ∃ s', writer s preMerge a prevNext = some (s', data c.value) ∧
      Results s s' i (s.values pre ++ out c.value ++ s.values post)

theorem removeWriter_writes : Writes removeWriter (fun _ => True) (fun _ => []) Tag.data := by
  constructor
  intro s i a pre post prevNext c preMerge hs hfront hc hcount hpost _
  rw [List.append_nil]
  cases preMerge with
  | true =>
    obtain ⟨t, s', ht, hs', hresults⟩ := bypass_free hs hfront hc hcount hpost
    exact ⟨s', by simp [removeWriter, hc, ht, hs'], hresults⟩
  | false =>
    rw [if_neg Bool.false_ne_true] at hcount
    obtain ⟨t, u, s', ht, hu, hs', hresults⟩ := bypass_shared hs hfront hc hcount hpost
    exact ⟨s', by simp [removeWriter, hc, ht, hu, hs'], hresults⟩

theorem overwrite_of_length {old new : List UInt8} (h : old.length = new.length) :
    overwrite old new = some new := by
  rw [overwrite, if_pos (Nat.le_of_eq h.symm), List.drop_eq_nil_of_le (Nat.le_of_eq h),
    List.append_nil]

theorem rewrite_value (hs : s.Sound) (hfront : s.Front i pre prevNext (some a))
    (hc : s.cell a = some c) (hone : c.count = 1) (hpost : s.Path c.next post) (v : Tag) :
    Results s (s.setCell a (some { c with value := v })) i
      (s.values pre ++ v :: s.values post) := by
  obtain ⟨hpre, hapost, hnodup⟩ := hfront.nodup hs hc hpost
  have hupdates : SharedChains.Updates s (s.setCell a (some { c with value := v })) a
      fun d => { d with value := v } :=
    SharedChains.Updates.of_setCell hc fun d => { d with value := v }
  have hcounts : SharedChains.Counts (SharedChains.setCell s a (some { c with value := v })) _ :=
    hs.counts.setCell hc rfl rfl
  generalize hs' : SharedChains.setCell s a (some { c with value := v }) = s' at hupdates hcounts ⊢
  have hcell : ∀ b d, s.cell b = some d →
      s'.cell b = some { d with value := if b = a then v else d.value } := by
    intro b d hd
    rw [hupdates.cell b, hd, Option.map_some]
    split_ifs <;> rfl
  have hother : ∀ b d, b ≠ a → s.cell b = some d → s'.cell b = some d := by
    intro b d hb hd
    rw [hcell b d hd, if_neg hb]
  have hnew : s'.cell a = some { c with value := v } := by rw [hcell a c hc, if_pos rfl]
  have hfront' : s'.Front i pre prevNext (some a) :=
    hfront.frame (by rw [hupdates.heads]) fun b _ d hd => ⟨_, hcell b d hd, rfl, rfl⟩
  obtain ⟨hpost', hvaluespost⟩ := hpost.frame s' fun b hb d hd =>
    ⟨d, hother b d (fun heq => hapost (heq ▸ hb)) hd, rfl, rfl⟩
  have hvaluespre : s'.values pre = s.values pre := SharedChains.values_congr fun b hb => by
    obtain ⟨d, hd, _⟩ := hfront.cell hb
    rw [hother b d (fun heq => hpre (heq ▸ hb)) hd, hd]
  have hkeeps : s.Keeps s' i := by
    refine .of_front hs (.next hfront hc hone) (by rw [hupdates.heads])
      (fun j _ => by rw [hupdates.heads]) fun j p l hj hp hl b hb hbfront d hd => ?_
    have hne : b ≠ a := fun heq =>
      hbfront (heq ▸ List.mem_append_right pre List.mem_cons_self)
    exact ⟨d, hother b d hne hd, rfl, rfl⟩
  obtain ⟨p', hp', hpath⟩ := hfront'.path (.cons hnew hpost')
  refine .of_counts hs hcounts (fun _ => rfl) (fun b d' hd' => ?_) (hs.gone.updates hupdates)
    hkeeps ⟨p', _, hp', hpath, ?_⟩
  · rw [hupdates.cell b] at hd'
    obtain ⟨d, hd, rfl⟩ := Option.map_eq_some_iff.mp hd'
    have hpos := hs.live b d hd
    split_ifs <;> exact hpos
  · rw [SharedChains.values_append, hvaluespre, SharedChains.values_cons hnew, hvaluespost]

theorem replaceWriter_writes (tag : Tag) :
    Writes (replaceWriter tag)
      (fun old => old.tid = tag.tid ∧ old.data.length = tag.data.length) (fun _ => [tag])
      fun _ => tag.data := by
  constructor
  intro s i a pre post prevNext c preMerge hs hfront hc hcount hpost hgood
  rw [List.append_assoc, List.singleton_append]
  cases preMerge with
  | true =>
    have hbytes := overwrite_of_length hgood.2
    have htag : (⟨c.value.tid, tag.data⟩ : Tag) = tag := by rw [hgood.1]
    refine ⟨_, ?_, rewrite_value hs hfront hc hcount hpost tag⟩
    simp [replaceWriter, hc, hbytes, htag]
  | false =>
    rw [if_neg Bool.false_ne_true] at hcount
    obtain ⟨t, u, s', ht, hu, hs', hcopies⟩ := copy_shared hs hfront hc hcount hpost tag
    refine ⟨s', ?_, hcopies.results⟩
    have hcopy : (t.alloc ⟨c.next, 1, tag⟩).1 = t.cells.length := rfl
    simp [replaceWriter, hc, ht, hu, hcopy, hs']

/-- What the copying loop leaves: the list reaches the shared cell of the type through cells that
nobody else sees, and no list has changed. -/
structure CopiedTo (s s' : PacketTagLists) (i tid : ℕ) (tags : List Tag) (prevNext : Link)
    (cur : ℕ) : Prop where
  sound : s'.Sound
  keeps : s.Keeps s' i
  reached : ∃ mid c post, s'.Front i mid prevNext (some cur) ∧ s'.cell cur = some c ∧
    1 < c.count ∧ c.value.tid = tid ∧ s'.Path c.next post ∧
    (∀ t ∈ s'.values mid, t.tid ≠ tid) ∧ s'.values mid ++ c.value :: s'.values post = tags

theorem copyTo_spec {l : List ℕ} (hs : s.Sound) (hfront : s.Front i pre prevNext (some a))
    (hl : s.Path (some a) l) (hc : s.cell a = some c) (hmerge : 1 < c.count)
    (hfuel : l.length ≤ fuel) (htid : ∃ t ∈ s.values l, t.tid = tid)
    (hpre : ∀ t ∈ s.values pre, t.tid ≠ tid) :
    ∃ s' link cur, copyTo tid fuel s prevNext a = some (s', link, cur) ∧
      CopiedTo s s' i tid (s.values pre ++ s.values l) link cur := by
  induction l generalizing s a c pre prevNext fuel with
  | nil => cases hl
  | cons b post ih =>
    cases hl with
    | @cons _ c' _ hc' hpost =>
      rw [hc] at hc'
      cases hc'
      have hvalues := SharedChains.values_cons hc post
      cases fuel with
      | zero => exact absurd hfuel (Nat.not_succ_le_zero _)
      | succ fuel =>
        by_cases hfound : c.value.tid = tid
        · refine ⟨s, prevNext, b, by simp [copyTo, hc, hfound], hs, .refl s i, pre, c, post,
            hfront, hc, hmerge, hfound, hpost, hpre, ?_⟩
          rw [hvalues]
        · -- the tag is further on, so the cell is copied
          obtain ⟨t, ht, httid⟩ := htid
          rw [hvalues] at ht
          have htpost : t ∈ s.values post :=
            (List.mem_cons.mp ht).resolve_left fun heq => hfound (heq ▸ httid)
          obtain ⟨u, v, s₁, hu, hv, hs₁, hcopies⟩ :=
            copy_shared hs hfront hc hmerge hpost c.value
          cases hnext : c.next with
          | none =>
            rw [hnext] at hpost
            cases hpost
            cases htpost
          | some next =>
            obtain ⟨d, hd, hdmerge⟩ := hcopies.merge next hnext
            have hstep : copyTo tid (fuel + 1) s prevNext b =
                copyTo tid fuel s₁ (.next u.cells.length) next := by
              rw [hnext] at hv
              have hcopy : (u.alloc ⟨some next, 1, c.value⟩).1 = u.cells.length := rfl
              have hshare : (u.alloc ⟨some next, 1, c.value⟩).2.incCount next = some v := hv
              simp [copyTo, hc, hfound, Nat.not_le.mpr hmerge, hnext, hu, hcopy, hshare, hs₁]
            have hfront₁ := hcopies.front
            have hpost₁ := hcopies.path
            rw [hnext] at hfront₁ hpost₁
            have hpre₁ : ∀ t ∈ s₁.values (pre ++ [u.cells.length]), t.tid ≠ tid := by
              intro t ht
              rw [hcopies.values, List.mem_append, List.mem_singleton] at ht
              cases ht with
              | inl hmem => exact hpre t hmem
              | inr heq => exact heq ▸ hfound
            obtain ⟨s', link, cur, hs', hcopied⟩ := ih hcopies.results.sound hfront₁ hpost₁ hd
              hdmerge (Nat.le_of_succ_le_succ hfuel)
              ⟨t, hcopies.values_post ▸ htpost, httid⟩ hpre₁
            refine ⟨s', link, cur, hstep.trans hs', hcopied.sound,
              hcopies.results.keeps.trans hcopied.keeps, ?_⟩
            have htags : s₁.values (pre ++ [u.cells.length]) ++ s₁.values post =
                s.values pre ++ s.values (b :: post) := by
              rw [hcopies.values, hcopies.values_post, hvalues, List.append_assoc,
                List.singleton_append]
            exact htags ▸ hcopied.reached

theorem Results.of_keeps {t : PacketTagLists} (h : Results t s' i tags) (hkeeps : s.Keeps t i) :
    Results s s' i tags :=
  ⟨h.sound, hkeeps.trans h.keeps, h.shows⟩

theorem cowTraverse_spec {writer : COWWriter} {good : Tag → Prop} {out : Tag → List Tag}
    {data : Tag → List UInt8} (hwriter : Writes writer good out data) (hs : s.Sound)
    (hshows : s.Shows i tags) (hgood : ∀ t ∈ tags, t.tid = tid → good t) :
    ∃ s', cowTraverse s i tid writer =
        some (s', (tags.find? fun t => t.tid = tid).map data) ∧
      Results s s' i (changeFirst tid out tags) := by
  obtain ⟨p, l, hp, hl, rfl⟩ := hshows
  obtain ⟨search, hsearch, hcase⟩ := search_spec tid hs (.head hp) hl hl.length_le
  cases hcase with
  | missing hnone =>
    refine ⟨s, ?_, hs, .refl s i, p, l, hp, hl, (changeFirst_none hnone).symm⟩
    have hfind : (s.values l).find? (fun t => t.tid = tid) = none :=
      List.find?_eq_none.mpr (by simpa using hnone)
    simp [cowTraverse, hp, hsearch, hfind]
  | found mid post link cur c hrest hfront hc hone htid hnone =>
    rw [List.nil_append] at hfront
    have hpost : s.Path c.next post := by
      cases (hrest ▸ hl).of_append with
      | cons hc' hpost =>
        rw [hc] at hc'
        cases hc'
        exact hpost
    have hvalues : s.values l = s.values mid ++ c.value :: s.values post := by
      rw [hrest, SharedChains.values_append, SharedChains.values_cons hc]
    rw [hvalues] at hgood ⊢
    obtain ⟨s', hs', hresults⟩ := hwriter.run true hs hfront hc hone hpost
      (hgood c.value (List.mem_append_right _ List.mem_cons_self) htid)
    rw [changeFirst_append _ hnone htid, find?_append _ hnone htid]
    exact ⟨s', by simp [cowTraverse, hp, hsearch, hs'], hresults⟩
  | merge mid post link cur c hrest hfront hc hmerge hnone =>
    rw [List.nil_append] at hfront
    have hcur : s.Path (some cur) (cur :: post) := (hrest ▸ hl).of_append
    have hvalues : s.values l = s.values mid ++ s.values (cur :: post) := by
      rw [hrest, SharedChains.values_append]
    obtain ⟨found, hfound, hvalue⟩ := find_spec tid hcur hcur.length_le
    rw [hvalues] at hgood ⊢
    cases hfind : (s.values (cur :: post)).find? (fun t => t.tid = tid) with
    | none =>
      rw [hfind, Option.map_eq_none_iff] at hvalue
      have hall : ∀ t ∈ s.values mid ++ s.values (cur :: post), t.tid ≠ tid := by
        intro t ht
        cases List.mem_append.mp ht with
        | inl hmem => exact hnone t hmem
        | inr hmem => simpa using List.find?_eq_none.mp hfind t hmem
      refine ⟨s, ?_, hs, .refl s i, p, l, hp, hl, by rw [changeFirst_none hall, hvalues]⟩
      have hfindall : (s.values mid ++ s.values (cur :: post)).find? (fun t => t.tid = tid) =
          none := List.find?_eq_none.mpr (by simpa using hall)
      simp [cowTraverse, hp, hsearch, hfound, hvalue, hfindall]
    | some old =>
      rw [hfind] at hvalue
      obtain ⟨d, rfl, _⟩ := Option.map_eq_some_iff.mp hvalue
      have htid : ∃ t ∈ s.values (cur :: post), t.tid = tid :=
        ⟨old, List.mem_of_find?_eq_some hfind, by simpa using List.find?_some hfind⟩
      obtain ⟨t, link', cur', ht, hcopied⟩ := copyTo_spec hs hfront hcur hc hmerge
        hcur.length_le htid hnone
      obtain ⟨mid', c', post', hfront', hc', hmerge', htid', hpost', hnone', htags⟩ :=
        hcopied.reached
      rw [← htags] at hgood ⊢
      obtain ⟨s', hs', hresults⟩ := hwriter.run false hcopied.sound hfront' hc' hmerge' hpost'
        (hgood c'.value (List.mem_append_right _ List.mem_cons_self) htid')
      rw [changeFirst_append _ hnone' htid', find?_append _ hnone' htid']
      refine ⟨s', ?_, hresults.of_keeps hcopied.keeps⟩
      simp [cowTraverse, hp, hsearch, hfound, ht, hc', Nat.not_le.mpr hmerge', hs']

theorem peek_spec (tid : ℕ) (hshows : s.Shows i tags) :
    peek s i tid = some ((tags.find? fun t => t.tid = tid).map Tag.data) := by
  obtain ⟨p, l, hp, hl, rfl⟩ := hshows
  obtain ⟨found, hfound, hvalue⟩ := find_spec tid hl hl.length_le
  rw [← hvalue]
  simp [peek, hp, hfound, Function.comp_def]

theorem add_spec (hs : s.Sound) (hshows : s.Shows i tags) (habsent : ∀ t ∈ tags, t.tid ≠ tag.tid) :
    ∃ s', add s i tag = some s' ∧ Results s s' i (tag :: tags) := by
  obtain ⟨p, l, hp, hl, rfl⟩ := hshows
  obtain ⟨found, hfound, hvalue⟩ := find_spec tag.tid hl hl.length_le
  rw [List.find?_eq_none.mpr (by simpa using habsent), Option.map_eq_none_iff] at hvalue
  let t : PacketTagLists := (s.alloc ⟨p, 1, tag⟩).2
  have htarget : t.target (.head i) = some p := hp
  obtain ⟨s', hs'⟩ := SharedChains.exists_setLink htarget (some s.cells.length)
  have hsome : add s i tag = some s' := by
    have hlink : (s.alloc ⟨p, 1, tag⟩).2.setLink (.head i)
        (some (s.alloc ⟨p, 1, tag⟩).1) = some s' := hs'
    simp [add, hp, hfound, hvalue, hlink]
  have hcell : ∀ b, s'.cell b = if b = s.cells.length then some ⟨p, 1, tag⟩ else s.cell b := by
    intro b
    rw [SharedChains.cell_setLink hs' b, SharedChains.cell_alloc]
    simp
  have hold : ∀ b d, s.cell b = some d → s'.cell b = some d := by
    intro b d hd
    have hlt := SharedChains.cell_lt hd
    rw [hcell, if_neg (Nat.ne_of_lt hlt), hd]
  have hkeeps : s.Keeps s' i := by
    refine .of_front hs (.head hp) (SharedChains.heads_setLink hs').1 (fun j hj => ?_)
      fun j p l _ _ _ b _ _ d hd => ⟨d, hold b d hd, rfl, rfl⟩
    rw [(SharedChains.heads_setLink hs').2, if_neg fun heq => hj (Link.head.inj heq).symm]
    rfl
  obtain ⟨hpath, hvalues⟩ := hl.frame s' fun b _ d hd => ⟨d, hold b d hd, rfl, rfl⟩
  have hnew : s'.cell s.cells.length = some ⟨p, 1, tag⟩ := by rw [hcell, if_pos rfl]
  refine ⟨s', hsome, .of_counts hs ((hs.counts.alloc _).setLink htarget hs') (fun b => ?_)
    (fun b d hd => ?_) ((hs.gone.alloc _).setLink hs') hkeeps
    ⟨_, _, SharedChains.target_setLink htarget hs', .cons hnew hpath, ?_⟩⟩
  · simp only [Option.some.injEq]
    split_ifs <;> omega
  · rw [hcell] at hd
    split_ifs at hd
    · cases hd
      exact Nat.one_pos
    · exact hs.live b d hd
  · rw [SharedChains.values_cons hnew, hvalues]

theorem replace_spec (hs : s.Sound) (hshows : s.Shows i tags)
    (hsize : ∀ t ∈ tags, t.tid = tag.tid → t.data.length = tag.data.length) :
    ∃ s', replace s i tag =
        some (s', (tags.find? fun t => t.tid = tag.tid).map fun _ => tag.data) ∧
      Results s s' i (if ∃ t ∈ tags, t.tid = tag.tid
        then changeFirst tag.tid (fun _ => [tag]) tags else tag :: tags) := by
  obtain ⟨t, ht, hresults⟩ := cowTraverse_spec (replaceWriter_writes tag) hs hshows
    fun t ht htid => ⟨htid, hsize t ht htid⟩
  cases hfind : tags.find? (fun t => t.tid = tag.tid) with
  | none =>
    have habsent : ∀ t ∈ tags, t.tid ≠ tag.tid := by simpa using List.find?_eq_none.mp hfind
    rw [changeFirst_none habsent] at hresults
    obtain ⟨s', hs', hadd⟩ := add_spec hresults.sound hresults.shows habsent
    rw [hfind] at ht
    refine ⟨s', by simp [replace, ht, hs'], ?_⟩
    rw [if_neg fun hex => hex.elim fun t ht => habsent t ht.1 ht.2]
    exact hadd.of_keeps hresults.keeps
  | some old =>
    have hpresent : ∃ t ∈ tags, t.tid = tag.tid :=
      ⟨old, List.mem_of_find?_eq_some hfind, by simpa using List.find?_some hfind⟩
    rw [hfind] at ht
    refine ⟨t, by simp [replace, ht], ?_⟩
    rw [if_pos hpresent]
    exact hresults

section RemoveAll
variable {s₀ : PacketTagLists} {prev cur : Option ℕ} {w : ℕ → ℤ}

theorem freePrev_spec (hprev : ∀ b, prev = some b → ∃ c, s.cell b = some c ∧ c.count = 0 ∧
      c.next = cur) (hcounts : s.Counts w) (hgone : s.Gone) :
    ∃ s', freePrev s prev = some s' ∧ s'.heads = s.heads ∧
      (∀ b, s'.cell b = if prev = some b then none else s.cell b) ∧ s'.Gone ∧
      s'.Counts fun b => w b + if prev ≠ none ∧ cur = some b then 1 else 0 := by
  cases prev with
  | none => exact ⟨s, rfl, rfl, fun _ => rfl, hgone, hcounts.congr fun b => by simp⟩
  | some prev =>
    obtain ⟨c, hc, hcount, hnext⟩ := hprev prev rfl
    have hs' := SharedChains.free_of hc
    refine ⟨_, hs', SharedChains.heads_free hs', fun b => ?_, hgone.free hs',
      (hcounts.free hc hs').congr fun b => ?_⟩
    · rw [SharedChains.cell_free hs' b]
      simp only [Option.some.injEq, eq_comm]
    · simp [hcount, hnext]

/-- The loop of `RemoveAll` has gone through `pre`: these cells are gone but for the last, whose
count is zero. Their first one still has the link from the list. -/
structure Releasing (s₀ s : PacketTagLists) (p : Option ℕ) (pre : List ℕ) (prev cur : Option ℕ) :
    Prop where
  heads : s.heads = s₀.heads
  first : prev = none → pre = [] ∧ cur = p
  kept : ∀ b, b ∉ pre → s.cell b = s₀.cell b
  dead : ∀ b ∈ pre, prev ≠ some b → s.cell b = none
  mem : ∀ b, prev = some b → b ∈ pre
  last : ∀ b, prev = some b → ∃ c, s.cell b = some c ∧ c.count = 0 ∧ c.next = cur
  counts : s.Counts fun b => if prev ≠ none ∧ p = some b then -1 else 0
  gone : s.Gone

/-- The loop is over: the cells that nobody else saw are gone, and the others have lost the link
from these. -/
structure Released (s₀ s : PacketTagLists) (i : ℕ) (p : Option ℕ) (front : List ℕ) : Prop where
  isFront : ∃ link q, s₀.Front i front link q
  heads : s.heads = s₀.heads
  kept : ∀ b d, b ∉ front → s₀.cell b = some d →
    ∃ d', s.cell b = some d' ∧ d'.next = d.next ∧ d'.value = d.value
  live : ∀ b d, s.cell b = some d → 0 < d.count
  counts : s.Counts fun b => if p = some b then -1 else 0
  gone : s.Gone

theorem removeAllLoop_spec (hs₀ : s₀.Sound) (hfront : s₀.Front i pre prevNext cur)
    (hl : s₀.Path cur post) (hfuel : post.length ≤ fuel) (hs : Releasing s₀ s p pre prev cur) :
    ∃ s' front, removeAllLoop fuel s prev cur = some s' ∧ Released s₀ s' i p front := by
  induction post generalizing s pre prevNext prev cur fuel with
  | nil =>
    cases hl
    obtain ⟨s', hs', hheads, hcell, hgone, hcounts⟩ := freePrev_spec hs.last hs.counts hs.gone
    refine ⟨s', pre, by cases fuel <;> exact hs', ⟨_, _, hfront⟩, hheads.trans hs.heads,
      fun b d hb hd => ⟨d, ?_, rfl, rfl⟩, fun b d hd => ?_, hcounts.congr fun b => ?_, hgone⟩
    · rw [hcell, if_neg fun heq => hb (hs.mem b heq), hs.kept b hb, hd]
    · rw [hcell] at hd
      split_ifs at hd with hlast
      by_cases hb : b ∈ pre
      · rw [hs.dead b hb hlast] at hd
        cases hd
      · rw [hs.kept b hb] at hd
        exact hs₀.live b d hd
    · cases prev with
      | none => simp [← (hs.first rfl).2]
      | some prev => simp
  | cons a post ih =>
    cases hl with
    | @cons _ c _ hc hpost =>
      obtain ⟨ha, _, _⟩ := hfront.nodup hs₀ hc hpost
      have hsa : s.cell a = some c := by rw [hs.kept a ha, hc]
      obtain ⟨t, ht⟩ : ∃ t, s.decCount a = some t :=
        ⟨_, SharedChains.decCount_of hsa (hs₀.live a c hc)⟩
      have hupdates := SharedChains.updates_decCount ht
      have hta : t.cell a = some { c with count := c.count - 1 } := by
        rw [hupdates.cell a, hsa, Option.map_some, if_pos rfl]
      have hother : ∀ b, b ≠ a → t.cell b = s.cell b := by
        intro b hb
        rw [hupdates.cell b]
        cases s.cell b with
        | none => rfl
        | some d => rw [Option.map_some, if_neg hb]
      have hlast : ∀ b, prev = some b → ∃ d, t.cell b = some d ∧ d.count = 0 ∧
          d.next = some a := by
        intro b hb
        rw [hother b fun heq => ha (heq ▸ hs.mem b hb)]
        exact hs.last b hb
      obtain ⟨u, hu, hheads, hcell, hgone, hcounts⟩ :=
        freePrev_spec hlast (hs.counts.decCount ht) (hs.gone.updates hupdates)
      have hcounts : u.Counts fun b => if p = some b then -1 else 0 := by
        refine hcounts.congr fun b => ?_
        cases prev with
        | none =>
          simp only [← (hs.first rfl).2, ne_eq, not_true_eq_false, false_and, if_false,
            Option.some.injEq]
          split_ifs <;> omega
        | some prev =>
          simp only [ne_eq, reduceCtorEq, not_false_eq_true, true_and, Option.some.injEq]
          split_ifs <;> omega
      have hua : u.cell a = some { c with count := c.count - 1 } := by
        rw [hcell, if_neg fun heq => ha (hs.mem a heq), hta]
      by_cases hone : c.count = 1
      · -- nobody else sees the cell: it is the next to be freed
        have hzero : ¬ 0 < c.count - 1 := by omega
        have hreleasing : Releasing s₀ u p (pre ++ [a]) (some a) c.next := by
          refine ⟨(hheads.trans hupdates.heads).trans hs.heads, nofun, fun b hb => ?_,
            fun b hb hne => ?_, fun b hb => ?_, fun b hb => ?_, hcounts.congr fun b => ?_, hgone⟩
          · rw [List.mem_append, List.mem_singleton, not_or] at hb
            rw [hcell, if_neg fun heq => hb.1 (hs.mem b heq), hother b hb.2, hs.kept b hb.1]
          · have hba : b ≠ a := fun heq => hne (congrArg some heq.symm)
            have hbpre : b ∈ pre := (List.mem_append.mp hb).resolve_right fun hmem =>
              hba (List.mem_singleton.mp hmem)
            rw [hcell]
            split_ifs with hprev
            · rfl
            · rw [hother b hba, hs.dead b hbpre hprev]
          · cases hb
            exact List.mem_append_right pre List.mem_cons_self
          · cases hb
            exact ⟨_, hua, Nat.le_zero.mp (Nat.not_lt.mp hzero), rfl⟩
          · simp
        cases fuel with
        | zero => exact absurd hfuel (Nat.not_succ_le_zero _)
        | succ fuel =>
          obtain ⟨s', front, hs', hreleased⟩ := ih (.next hfront hc hone) hpost
            (Nat.le_of_succ_le_succ hfuel) hreleasing
          exact ⟨s', front, by simp [removeAllLoop, ht, hta, hzero, hu, hs'], hreleased⟩
      · have hmore : 0 < c.count - 1 := by
          have := hs₀.live a c hc
          omega
        cases fuel with
        | zero => exact absurd hfuel (Nat.not_succ_le_zero _)
        | succ fuel =>
          refine ⟨u, pre, by simp [removeAllLoop, ht, hta, hmore, hu], ⟨_, _, hfront⟩,
            (hheads.trans hupdates.heads).trans hs.heads, fun b d hb hd => ?_, fun b d hd => ?_,
            hcounts, hgone⟩
          · rw [hcell, if_neg fun heq => hb (hs.mem b heq), hupdates.cell b, hs.kept b hb, hd]
            refine ⟨_, rfl, ?_⟩
            split_ifs <;> exact ⟨rfl, rfl⟩
          · by_cases hba : b = a
            · rw [hba, hua] at hd
              cases hd
              exact hmore
            · rw [hcell] at hd
              split_ifs at hd with hprev
              rw [hother b hba] at hd
              by_cases hb : b ∈ pre
              · rw [hs.dead b hb hprev] at hd
                cases hd
              · rw [hs.kept b hb] at hd
                exact hs₀.live b d hd

theorem removeAll_spec (hs : s.Sound) (hshows : s.Shows i tags) :
    ∃ s', removeAll s i = some s' ∧ Results s s' i [] ∧ s'.heads[i]? = some none := by
  obtain ⟨p, l, hp, hl, _⟩ := hshows
  have hreleasing : Releasing s s p [] none p := by
    refine ⟨rfl, fun _ => ⟨rfl, rfl⟩, fun _ _ => rfl, nofun, nofun, nofun,
      hs.counts.congr fun b => ?_, hs.gone⟩
    simp
  obtain ⟨t, front, ht, hreleased⟩ := removeAllLoop_spec hs (.head hp) hl hl.length_le hreleasing
  obtain ⟨link, q, hfront⟩ := hreleased.isFront
  have htarget : t.target (.head i) = some p := by
    rw [SharedChains.target, hreleased.heads]
    exact hp
  obtain ⟨s', hs'⟩ := SharedChains.exists_setLink htarget none
  have hcell : ∀ b, s'.cell b = t.cell b := by
    intro b
    rw [SharedChains.cell_setLink hs' b]
    cases t.cell b with
    | none => rfl
    | some d => rfl
  have hheads := (SharedChains.heads_setLink hs').2
  have hhead : s'.heads[i]? = some none := by rw [hheads, if_pos rfl]
  have hkeeps : s.Keeps s' i := by
    refine .of_front hs hfront ?_ (fun j hj => ?_) fun j p l _ _ _ b _ hb d hd => ?_
    · rw [(SharedChains.heads_setLink hs').1, hreleased.heads]
    · rw [hheads, if_neg fun heq => hj (Link.head.inj heq).symm, hreleased.heads]
    · rw [hcell]
      exact hreleased.kept b d hb hd
  refine ⟨s', by simp [removeAll, hp, ht, hs'], .of_counts hs
    (hreleased.counts.setLink htarget hs') (fun b => ?_) (fun b d hd => ?_)
    (hreleased.gone.setLink hs') hkeeps ⟨none, [], hhead, .nil, rfl⟩, hhead⟩
  · simp only [reduceCtorEq, if_false]
    split_ifs <;> omega
  · rw [hcell] at hd
    exact hreleased.live b d hd

end RemoveAll

structure Joins (s s' : PacketTagLists) (tags : List Tag) : Prop where
  sound : s'.Sound
  length : s'.heads.length = s.heads.length + 1
  kept : ∀ j tags, s.Shows j tags → s'.Shows j tags
  shows : s'.Shows s.heads.length tags

section Share

theorem path_share {l : List ℕ} {t : PacketTagLists} (hcell : ∀ b, t.cell b = s.cell b)
    (hs' : share t q = some s') (hl : s.Path p l) :
    s'.Path p l ∧ s'.values l = s.values l := by
  refine hl.frame s' fun b _ d hd => ?_
  rw [cell_share hs' b, hcell b, hd]
  refine ⟨_, rfl, ?_⟩
  split_ifs <;> exact ⟨rfl, rfl⟩

theorem live_share {t : PacketTagLists} (hs : s.Sound) (hcell : ∀ b, t.cell b = s.cell b)
    (hs' : share t q = some s') (b : ℕ) (d : TagData) (hd : s'.cell b = some d) :
    0 < d.count := by
  rw [cell_share hs' b, hcell b] at hd
  obtain ⟨d', hd', rfl⟩ := Option.map_eq_some_iff.mp hd
  have hpos := hs.live b d' hd'
  split_ifs
  · exact Nat.succ_pos _
  · exact hpos

theorem share_head {l : List ℕ} (hs : s.Sound) (hhead : s.heads[i]? = some none)
    (hl : s.Path p l) : ∃ t s', s.setLink (.head i) p = some t ∧ share t p = some s' ∧
      Results s s' i (s.values l) := by
  have htarget : s.target (.head i) = some none := hhead
  obtain ⟨t, ht⟩ := SharedChains.exists_setLink htarget p
  have hcell : ∀ b, t.cell b = s.cell b := by
    intro b
    rw [SharedChains.cell_setLink ht b]
    cases s.cell b with
    | none => rfl
    | some d => rfl
  obtain ⟨s', hs'⟩ : ∃ s', share t p = some s' := by
    refine exists_share fun b hb => ?_
    rw [hb] at hl
    cases hl with
    | cons hd _ => exact ⟨_, (hcell b).trans hd⟩
  have hheads : ∀ j : ℕ, s'.heads[j]? = if i = j then some p else s.heads[j]? := by
    intro j
    rw [heads_share hs', (SharedChains.heads_setLink ht).2]
    simp
  have hkeeps : s.Keeps s' i := by
    refine ⟨?_, fun j hj => by rw [hheads, if_neg (Ne.symm hj)], fun j p l _ _ hl =>
      path_share hcell hs' hl⟩
    rw [heads_share hs', (SharedChains.heads_setLink ht).1]
  obtain ⟨hpath, hvalues⟩ := path_share hcell hs' hl
  refine ⟨t, s', ht, hs', .of_counts hs (counts_share (hs.counts.setLink htarget ht) hs')
    (fun b => ?_) (live_share hs hcell hs') (gone_share (hs.gone.setLink ht) hs') hkeeps
    ⟨p, l, by rw [hheads, if_pos rfl], hpath, hvalues⟩⟩
  simp only [reduceCtorEq, if_false]
  split_ifs <;> omega

theorem share_new {l : List ℕ} (hs : s.Sound) (hl : s.Path p l) :
    ∃ s', share { s with heads := s.heads ++ [p] } p = some s' ∧ Joins s s' (s.values l) := by
  let t : PacketTagLists := { s with heads := s.heads ++ [p] }
  have hcell : ∀ b, t.cell b = s.cell b := fun _ => rfl
  obtain ⟨s', hs'⟩ : ∃ s', share t p = some s' := by
    refine exists_share fun b hb => ?_
    rw [hb] at hl
    cases hl with
    | cons hd _ => exact ⟨_, hd⟩
  have hheads : s'.heads = s.heads ++ [p] := heads_share hs'
  have hold : ∀ j tags, s.Shows j tags → s'.Shows j tags := by
    rintro j tags ⟨q, m, hq, hm, rfl⟩
    obtain ⟨hpath, hvalues⟩ := path_share hcell hs' hm
    refine ⟨q, m, ?_, hpath, hvalues⟩
    rw [hheads, List.getElem?_append_left (List.getElem?_eq_some_iff.mp hq).1, hq]
  obtain ⟨hpath, hvalues⟩ := path_share hcell hs' hl
  have hnew : s'.Shows s.heads.length (s.values l) := by
    refine ⟨p, l, ?_, hpath, hvalues⟩
    rw [hheads, List.getElem?_concat_length]
  refine ⟨s', hs', ⟨(counts_share (hs.counts.push p) hs').congr fun b => ?_,
    live_share hs hcell hs', fun j q hq => ?_,
    gone_share (s := t) ⟨hs.gone.nodup, hs.gone.mem⟩ hs'⟩, ?_, hold, hnew⟩
  · omega
  · rw [hheads] at hq
    cases Nat.lt_or_ge j s.heads.length with
    | inl hlt =>
      rw [List.getElem?_append_left hlt] at hq
      obtain ⟨m, hm⟩ := hs.path j q hq
      exact ⟨m, (path_share hcell hs' hm).1⟩
    | inr hge =>
      rw [List.getElem?_append_right hge] at hq
      have hqp : p = q := by
        cases hsub : j - s.heads.length with
        | zero =>
          rw [hsub] at hq
          exact Option.some.inj hq
        | succ k =>
          rw [hsub] at hq
          cases hq
      exact ⟨l, hqp ▸ hpath⟩
  · rw [hheads, List.length_append, List.length_singleton]

end Share

theorem construct_spec (hs : s.Sound) : Joins s (construct s) [] := by
  obtain ⟨s', hs', hjoins⟩ := share_new hs (p := none) .nil
  cases hs'
  exact hjoins

theorem copy_spec {o : ℕ} (hs : s.Sound) (hshows : s.Shows o tags) :
    ∃ s', copy s o = some s' ∧ Joins s s' tags := by
  obtain ⟨p, l, hp, hl, rfl⟩ := hshows
  obtain ⟨s', hs', hjoins⟩ := share_new hs hl
  exact ⟨s', by simp [copy, hp, hs'], hjoins⟩

theorem assign_spec {o : ℕ} {old : List Tag} (hs : s.Sound) (hi : s.Shows i old)
    (ho : s.Shows o tags) : ∃ s', assign s i o = some s' ∧ Results s s' i tags := by
  obtain ⟨q, _, hq, _⟩ := id hi
  obtain ⟨p, l, hp, hl, rfl⟩ := ho
  by_cases hsame : q = p
  · refine ⟨s, by simp [assign, hq, hp, hsame], hs, .refl s i, p, l, ?_, hl, rfl⟩
    rw [hq, hsame]
  · have hne : o ≠ i := by
      rintro rfl
      rw [hq] at hp
      exact hsame (Option.some.inj hp)
    obtain ⟨t, ht, hresults, hhead⟩ := removeAll_spec hs hi
    obtain ⟨hpath, hvalues⟩ := hresults.keeps.path o p l hne hp hl
    have hpt : t.heads[o]? = some p := (hresults.keeps.head o hne).trans hp
    obtain ⟨u, s', hu, hs', hjoined⟩ := share_head hresults.sound hhead hpath
    refine ⟨s', by simp [assign, hq, hp, hsame, ht, hpt, hu, hs'], ?_⟩
    rw [← hvalues]
    exact hjoined.of_keeps hresults.keeps

theorem remove_spec (hs : s.Sound) (hshows : s.Shows i tags) (tid : ℕ) :
    ∃ s', remove s i tid = some (s', (tags.find? fun t => t.tid = tid).map Tag.data) ∧
      Results s s' i (changeFirst tid (fun _ => []) tags) :=
  cowTraverse_spec removeWriter_writes hs hshows fun _ _ _ => trivial

end PacketTagLists
end NetGymSim.Network

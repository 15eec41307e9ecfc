import NetGymSim.Network.PacketTagList

/-!
# What the operations on packet tag lists do

Each operation of a list keeps the counts, and no other list sees it. The steps that move a link
of the list, release a cell or copy one are proved once, for the front of the list that nobody
else can see.
-/

namespace NetGymSim.Network
open NetGymSim.Lib

namespace PacketTagLists
variable {s s' : PacketTagLists} {i a tid fuel : ℕ} {pre rest post : List ℕ} {prevNext : Link}
  {c : TagData} {p q : Option ℕ}

section Share

theorem cell_share (hs' : share s p = some s') (b : ℕ) :
    s'.cell b = (s.cell b).map fun c =>
      if p = some b then { c with count := c.count + 1 } else c := by
  cases p with
  | none =>
    cases hs'
    cases s.cell b with
    | none => rfl
    | some c => rfl
  | some next =>
    rw [(SharedChains.updates_incCount hs').cell b]
    simp only [Option.some.injEq, eq_comm]

theorem heads_share (hs' : share s p = some s') : s'.heads = s.heads := by
  cases p with
  | none => cases hs'; rfl
  | some next => exact (SharedChains.updates_incCount hs').heads

theorem gone_share (h : s.Gone) (hs' : share s p = some s') : s'.Gone := by
  cases p with
  | none => cases hs'; exact h
  | some next => exact h.updates (SharedChains.updates_incCount hs')

theorem counts_share {w : ℕ → ℤ} (h : s.Counts w) (hs' : share s p = some s') :
    s'.Counts fun b => w b + if p = some b then 1 else 0 := by
  cases p with
  | none =>
    cases hs'
    exact h.congr fun b => by simp
  | some next =>
    refine (h.incCount hs').congr fun b => ?_
    simp only [Option.some.injEq, eq_comm]

theorem exists_share (h : ∀ b, p = some b → ∃ c, s.cell b = some c) :
    ∃ s', share s p = some s' := by
  cases p with
  | none => exact ⟨s, rfl⟩
  | some next =>
    obtain ⟨c, hc⟩ := h next rfl
    exact ⟨_, SharedChains.incCount_of hc⟩

end Share

section Search

theorem find_spec (tid : ℕ) (h : s.Path p rest) (hfuel : rest.length ≤ fuel) :
    ∃ found, find s tid fuel p = some found ∧
      found.map Cell.value = (s.values rest).find? fun tag => tag.tid = tid := by
  induction h generalizing fuel with
  | nil => exact ⟨none, by cases fuel <;> rfl, rfl⟩
  | @cons b c rest hc hpath ih =>
    cases fuel with
    | zero => exact absurd hfuel (Nat.not_succ_le_zero _)
    | succ fuel =>
      have hvalues := SharedChains.values_cons hc rest
      rw [find, hc, hvalues]
      by_cases htid : c.value.tid = tid
      · exact ⟨some c, by simp [htid], by simp [htid]⟩
      · obtain ⟨found, hfound, hvalue⟩ := ih (Nat.le_of_succ_le_succ hfuel)
        exact ⟨found, by simp [htid, hfound], by simp [htid, hvalue]⟩

inductive SearchCase (s : PacketTagLists) (i : ℕ) (pre rest : List ℕ) (tid : ℕ) :
    TagSearch → Prop
  | missing : (∀ tag ∈ s.values rest, tag.tid ≠ tid) → SearchCase s i pre rest tid .missing
  | found (mid post : List ℕ) (prevNext : Link) (cur : ℕ) (c : TagData) :
      rest = mid ++ cur :: post → s.Front i (pre ++ mid) prevNext (some cur) →
      s.cell cur = some c → c.count = 1 → c.value.tid = tid →
      (∀ tag ∈ s.values mid, tag.tid ≠ tid) →
      SearchCase s i pre rest tid (.found prevNext cur)
  | merge (mid post : List ℕ) (prevNext : Link) (cur : ℕ) (c : TagData) :
      rest = mid ++ cur :: post → s.Front i (pre ++ mid) prevNext (some cur) →
      s.cell cur = some c → 1 < c.count → (∀ tag ∈ s.values mid, tag.tid ≠ tid) →
      SearchCase s i pre rest tid (.merge prevNext cur)

theorem search_spec (tid : ℕ) (hs : s.Sound) (hfront : s.Front i pre prevNext p) (h : s.Path p rest)
    (hfuel : rest.length ≤ fuel) :
    ∃ out, search s tid fuel prevNext p = some out ∧ SearchCase s i pre rest tid out := by
  induction h generalizing fuel pre prevNext with
  | nil =>
    refine ⟨.missing, by cases fuel <;> rfl, .missing fun tag htag => ?_⟩
    exact (List.not_mem_nil htag).elim
  | @cons b c rest hc hpath ih =>
    cases fuel with
    | zero => exact absurd hfuel (Nat.not_succ_le_zero _)
    | succ fuel =>
      have hvalues := SharedChains.values_cons hc rest
      rw [search, hc]
      dsimp only
      by_cases hmerge : 1 < c.count
      · rw [if_pos hmerge]
        refine ⟨_, rfl, .merge [] rest prevNext b c rfl ?_ hc hmerge nofun⟩
        rwa [List.append_nil]
      · rw [if_neg hmerge]
        have hone : c.count = 1 := by
          have := hs.live b c hc
          omega
        by_cases htid : c.value.tid = tid
        · rw [if_pos htid]
          refine ⟨_, rfl, .found [] rest prevNext b c rfl ?_ hc hone htid nofun⟩
          rwa [List.append_nil]
        · rw [if_neg htid]
          obtain ⟨out, hout, hcase⟩ := ih (.next hfront hc hone) (Nat.le_of_succ_le_succ hfuel)
          have hmid : ∀ mid, (∀ tag ∈ s.values mid, tag.tid ≠ tid) →
              ∀ tag ∈ s.values (b :: mid), tag.tid ≠ tid := by
            intro mid hmid tag htag
            rw [SharedChains.values_cons hc] at htag
            cases List.mem_cons.mp htag with
            | inl heq => exact heq ▸ htid
            | inr hmem => exact hmid tag hmem
          refine ⟨out, hout, ?_⟩
          cases hcase with
          | missing hnone =>
            refine .missing fun tag htag => ?_
            rw [hvalues] at htag
            cases List.mem_cons.mp htag with
            | inl heq => exact heq ▸ htid
            | inr hmem => exact hnone tag hmem
          | found mid post link cur d hrest hfront' hd hcount hfound hnone =>
            rw [List.append_assoc, List.singleton_append] at hfront'
            exact .found (b :: mid) post link cur d (by rw [hrest, List.cons_append]) hfront' hd
              hcount hfound (hmid mid hnone)
          | merge mid post link cur d hrest hfront' hd hcount hnone =>
            rw [List.append_assoc, List.singleton_append] at hfront'
            exact .merge (b :: mid) post link cur d (by rw [hrest, List.cons_append]) hfront' hd
              hcount (hmid mid hnone)

end Search

structure Results (s s' : PacketTagLists) (i : ℕ) (tags : List Tag) : Prop where
  sound : s'.Sound
  keeps : s.Keeps s' i
  shows : s'.Shows i tags

theorem Results.of_counts {tags : List Tag} {w : ℕ → ℤ} (hs : s.Sound) (hcounts : s'.Counts w)
    (hw : ∀ b, w b = 0) (hlive : ∀ b d, s'.cell b = some d → 0 < d.count) (hgone : s'.Gone)
    (hkeeps : s.Keeps s' i) (hshows : s'.Shows i tags) : Results s s' i tags :=
  ⟨⟨hcounts.congr fun b => (hw b).symm, hlive, hkeeps.paths hs hshows, hgone⟩, hkeeps, hshows⟩

section Steps

/-- The link of the front leads around its next cell, and the counts are right again. Cells behind
`front`, which is all that nobody else sees, stay as they are. -/
theorem Results.of_bypass {front : List ℕ} {link : Link} {q' : Option ℕ} {w : ℕ → ℤ}
    (hs : s.Sound) (hfront : s.Front i pre prevNext p) (hlast : s.Front i front link q')
    (hsub : pre ⊆ front) (hpost : s.Path q post) (hnodup : (pre ++ post).Nodup)
    (hlength : s'.heads.length = s.heads.length)
    (hheads : ∀ j : ℕ, s'.heads[j]? = if prevNext = .head j then some q else s.heads[j]?)
    (hcounts : s'.Counts w) (hw : ∀ b, w b = 0)
    (hlive : ∀ b d, s'.cell b = some d → 0 < d.count) (hgone : s'.Gone)
    (hcell : ∀ b d, b ∉ front ∨ b ∈ pre ++ post → s.cell b = some d → ∃ d', s'.cell b = some d' ∧
      d'.next = (if prevNext = .next b then q else d.next) ∧ (b ∈ pre → d'.count = d.count) ∧
      d'.value = d.value) :
    Results s s' i (s.values pre ++ s.values post) := by
  have hkeeps : s.Keeps s' i := by
    refine .of_front hs hlast hlength (fun j hj => ?_) fun j p l hj hp hl b hb hbfront d hd => ?_
    · rw [hheads, if_neg (hfront.link_ne_head hj)]
    · obtain ⟨d', hd', hnext, _, hvalue⟩ := hcell b d (.inl hbfront) hd
      rw [if_neg (hfront.link_ne_next fun hmem => hbfront (hsub hmem))] at hnext
      exact ⟨d', hd', hnext, hvalue⟩
  obtain ⟨hfront', hpost', hvalues⟩ := hfront.rejoin s' hpost hnodup (hheads i)
    fun b hb d hd => hcell b d (.inr hb) hd
  obtain ⟨p', hp', hpath⟩ := hfront'.path hpost'
  refine .of_counts hs hcounts hw hlive hgone hkeeps ⟨p', _, hp', hpath, ?_⟩
  rw [hvalues, SharedChains.values_append]

theorem bypass_free (hs : s.Sound) (hfront : s.Front i pre prevNext (some a))
    (hc : s.cell a = some c) (hone : c.count = 1) (hpost : s.Path c.next post) :
    ∃ t s', s.setLink prevNext c.next = some t ∧ t.free a = some s' ∧
      Results s s' i (s.values pre ++ s.values post) := by
  obtain ⟨hpre, hapost, hnodup⟩ := hfront.nodup hs hc hpost
  have hlink : prevNext ≠ .next a := hfront.link_ne_next hpre
  obtain ⟨t, ht⟩ := SharedChains.exists_setLink hfront.target c.next
  have hta : t.cell a = some c := by
    rw [SharedChains.cell_setLink ht a, hc, Option.map_some, if_neg hlink]
  obtain ⟨s', hs'⟩ : ∃ s', t.free a = some s' := ⟨_, SharedChains.free_of hta⟩
  have hcell : ∀ b, s'.cell b = if b = a then none else
      (s.cell b).map fun d => if prevNext = .next b then { d with next := c.next } else d :=
    fun b => by rw [SharedChains.cell_free hs', SharedChains.cell_setLink ht b]
  refine ⟨t, s', ht, hs', .of_bypass (w := fun b => _) hs hfront (.next hfront hc hone)
    (List.subset_append_left pre [a]) hpost hnodup ?_ ?_
    ((hs.counts.setLink hfront.target ht).free hta hs') ?_ ?_ ((hs.gone.setLink ht).free hs') ?_⟩
  · rw [SharedChains.heads_free hs', (SharedChains.heads_setLink ht).1]
  · intro j
    rw [SharedChains.heads_free hs', (SharedChains.heads_setLink ht).2]
  · intro b
    simp only [Option.some.injEq, hone]
    split_ifs <;> omega
  · intro b d hd
    have hb : b ≠ a := by
      rintro rfl
      rw [hcell, if_pos rfl] at hd
      cases hd
    rw [hcell, if_neg hb] at hd
    obtain ⟨d', hd', rfl⟩ := Option.map_eq_some_iff.mp hd
    have hpos := hs.live b d' hd'
    split_ifs <;> exact hpos
  · intro b d hb hd
    have hne : b ≠ a := by
      rintro rfl
      cases hb with
      | inl hnot => exact hnot (List.mem_append_right pre List.mem_cons_self)
      | inr hmem => exact (List.mem_append.mp hmem).elim hpre hapost
    rw [hcell, if_neg hne, hd]
    refine ⟨_, rfl, ?_⟩
    split_ifs <;> exact ⟨rfl, fun _ => rfl, rfl⟩

/-- The link leads around a cell that others see too, which loses a link; the cell behind it gains
one. -/
theorem bypass_shared (hs : s.Sound) (hfront : s.Front i pre prevNext (some a))
    (hc : s.cell a = some c) (hmerge : 1 < c.count) (hpost : s.Path c.next post) :
    ∃ t u s', s.setLink prevNext c.next = some t ∧ t.decCount a = some u ∧
      share u c.next = some s' ∧ Results s s' i (s.values pre ++ s.values post) := by
  obtain ⟨hpre, hapost, hnodup⟩ := hfront.nodup hs hc hpost
  have hlink : prevNext ≠ .next a := hfront.link_ne_next hpre
  obtain ⟨t, ht⟩ := SharedChains.exists_setLink hfront.target c.next
  have hta : t.cell a = some c := by
    rw [SharedChains.cell_setLink ht a, hc, Option.map_some, if_neg hlink]
  obtain ⟨u, hu⟩ : ∃ u, t.decCount a = some u :=
    ⟨_, SharedChains.decCount_of hta (Nat.lt_of_succ_lt hmerge)⟩
  have hupdates := SharedChains.updates_decCount hu
  have hnext : ∀ b, c.next = some b → ∃ d, s.cell b = some d := by
    intro b hb
    rw [hb] at hpost
    cases hpost with
    | cons hd _ => exact ⟨_, hd⟩
  obtain ⟨s', hs'⟩ : ∃ s', share u c.next = some s' := by
    refine exists_share fun b hb => ?_
    obtain ⟨d, hd⟩ := hnext b hb
    rw [hupdates.cell b, SharedChains.cell_setLink ht b, hd]
    exact ⟨_, rfl⟩
  have hcell : ∀ b d, s.cell b = some d → s'.cell b = some
      { next := if prevNext = .next b then c.next else d.next
        count := d.count - (if b = a then 1 else 0) + if c.next = some b then 1 else 0
        value := d.value } := by
    intro b d hd
    rw [cell_share hs', hupdates.cell b, SharedChains.cell_setLink ht b, hd]
    simp only [Option.map_some, Option.some.injEq]
    split_ifs <;> rfl
  have hold : ∀ b d', s'.cell b = some d' → ∃ d, s.cell b = some d := by
    intro b d' hd'
    rw [cell_share hs', hupdates.cell b, SharedChains.cell_setLink ht b] at hd'
    cases hd : s.cell b with
    | none =>
      rw [hd] at hd'
      cases hd'
    | some d => exact ⟨d, rfl⟩
  refine ⟨t, u, s', ht, hu, hs', .of_bypass (w := fun b => _) hs hfront hfront
    (List.Subset.refl pre) hpost hnodup ?_ ?_
    (counts_share ((hs.counts.setLink hfront.target ht).decCount hu) hs') ?_ ?_
    (gone_share ((hs.gone.setLink ht).updates hupdates) hs') ?_⟩
  · rw [heads_share hs', hupdates.heads, (SharedChains.heads_setLink ht).1]
  · intro j
    rw [heads_share hs', hupdates.heads, (SharedChains.heads_setLink ht).2]
  · intro b
    simp only [Option.some.injEq]
    split_ifs <;> omega
  · intro b d' hd'
    obtain ⟨d, hd⟩ := hold b d' hd'
    rw [hcell b d hd] at hd'
    cases hd'
    have hpos := hs.live b d hd
    by_cases hb : b = a
    · rw [hb, hc] at hd
      cases hd
      simp only [if_pos hb]
      omega
    · simp only [if_neg hb]
      omega
  · intro b d _ hd
    refine ⟨_, hcell b d hd, rfl, fun hb => ?_, rfl⟩
    have hne : b ≠ a := fun heq => hpre (heq ▸ hb)
    have hnot : c.next ≠ some b := by
      intro heq
      rw [heq] at hpost
      cases hpost with
      | cons _ _ => exact List.disjoint_of_nodup_append hnodup hb List.mem_cons_self
    simp [hne, hnot]

/-- A shared cell is copied with this value: the list goes through the copy to the cell behind it,
which is shared as well then. -/
structure Copies (s s' : PacketTagLists) (i copy : ℕ) (pre : List ℕ) (v : Tag) (q : Option ℕ)
    (post : List ℕ) : Prop where
  results : Results s s' i (s.values pre ++ v :: s.values post)
  front : s'.Front i (pre ++ [copy]) (.next copy) q
  path : s'.Path q post
  values : s'.values (pre ++ [copy]) = s.values pre ++ [v]
  values_post : s'.values post = s.values post
  merge : ∀ b, q = some b → ∃ d, s'.cell b = some d ∧ 1 < d.count

theorem copy_shared (hs : s.Sound) (hfront : s.Front i pre prevNext (some a))
    (hc : s.cell a = some c) (hmerge : 1 < c.count) (hpost : s.Path c.next post) (v : Tag) :
    ∃ t u s', s.decCount a = some t ∧ share (t.alloc ⟨c.next, 1, v⟩).2 c.next = some u ∧
      u.setLink prevNext (some t.cells.length) = some s' ∧
      Copies s s' i t.cells.length pre v c.next post := by
  obtain ⟨hpre, hapost, hnodup⟩ := hfront.nodup hs hc hpost
  obtain ⟨t, ht⟩ : ∃ t, s.decCount a = some t :=
    ⟨_, SharedChains.decCount_of hc (Nat.lt_of_succ_lt hmerge)⟩
  have hupdates := SharedChains.updates_decCount ht
  -- a live cell stays at its address, which is not that of the copy
  have hlt : ∀ b d, s.cell b = some d → b ≠ t.cells.length := by
    intro b d hd
    have := SharedChains.cell_lt hd
    rw [hupdates.length]
    omega
  have hnext : ∀ b, c.next = some b → ∃ d, s.cell b = some d := by
    intro b hb
    rw [hb] at hpost
    cases hpost with
    | cons hd _ => exact ⟨_, hd⟩
  obtain ⟨u, hu⟩ : ∃ u, share (t.alloc ⟨c.next, 1, v⟩).2 c.next = some u := by
    refine exists_share fun b hb => ?_
    obtain ⟨d, hd⟩ := hnext b hb
    rw [SharedChains.cell_alloc, if_neg (hlt b d hd), hupdates.cell b, hd]
    exact ⟨_, rfl⟩
  have hcellu : ∀ b d, s.cell b = some d → u.cell b = some
      { d with
        count := d.count - (if b = a then 1 else 0) + if c.next = some b then 1 else 0 } := by
    intro b d hd
    rw [cell_share hu, SharedChains.cell_alloc, if_neg (hlt b d hd), hupdates.cell b, hd]
    simp only [Option.map_some, Option.some.injEq]
    split_ifs <;> rfl
  have hnewu : u.cell t.cells.length = some ⟨c.next, 1, v⟩ := by
    have hne : c.next ≠ some t.cells.length := by
      intro heq
      obtain ⟨d, hd⟩ := hnext _ heq
      exact hlt _ d hd rfl
    rw [cell_share hu, SharedChains.cell_alloc, if_pos rfl, Option.map_some, if_neg hne]
  have hheadsu : u.heads = s.heads := (heads_share hu).trans hupdates.heads
  have hcount : ∀ b d, s.cell b = some d → b ∈ pre →
      d.count - (if b = a then 1 else 0) + (if c.next = some b then 1 else 0) = d.count := by
    intro b d hd hb
    have hne : b ≠ a := fun heq => hpre (heq ▸ hb)
    have hnot : c.next ≠ some b := by
      intro heq
      rw [heq] at hpost
      cases hpost with
      | cons _ _ => exact List.disjoint_of_nodup_append hnodup hb List.mem_cons_self
    rw [if_neg hne, if_neg hnot, Nat.sub_zero, Nat.add_zero]
  have hfrontu : u.Front i pre prevNext (some a) := by
    refine hfront.frame (by rw [hheadsu]) fun b hb d hd => ?_
    exact ⟨_, hcellu b d hd, rfl, hcount b d hd hb⟩
  obtain ⟨hpostu, hvaluesu⟩ := hpost.frame u fun b _ d hd => ⟨_, hcellu b d hd, rfl, rfl⟩
  obtain ⟨s', hs'⟩ := SharedChains.exists_setLink hfrontu.target (some t.cells.length)
  have hcell : ∀ b d, s.cell b = some d → s'.cell b = some
      { next := if prevNext = .next b then some t.cells.length else d.next
        count := d.count - (if b = a then 1 else 0) + if c.next = some b then 1 else 0
        value := d.value } := by
    intro b d hd
    rw [SharedChains.cell_setLink hs' b, hcellu b d hd, Option.map_some]
    split_ifs <;> rfl
  have hcopypre : t.cells.length ∉ pre := by
    intro hmem
    obtain ⟨d, hd, _⟩ := hfront.cell hmem
    exact hlt _ d hd rfl
  have hcopypost : t.cells.length ∉ post := by
    intro hmem
    obtain ⟨d, hd⟩ := hpost.exists_cell hmem
    exact hlt _ d hd rfl
  have hnew : s'.cell t.cells.length = some ⟨c.next, 1, v⟩ := by
    rw [SharedChains.cell_setLink hs', hnewu, Option.map_some,
      if_neg (hfront.link_ne_next hcopypre)]
  have hold : ∀ b d', b ≠ t.cells.length → s'.cell b = some d' → ∃ d, s.cell b = some d := by
    intro b d' hb hd'
    rw [SharedChains.cell_setLink hs', cell_share hu, SharedChains.cell_alloc, if_neg hb,
      hupdates.cell b] at hd'
    cases hd : s.cell b with
    | none =>
      rw [hd] at hd'
      cases hd'
    | some d => exact ⟨d, rfl⟩
  have hlive : ∀ b d', s'.cell b = some d' → 0 < d'.count := by
    intro b d' hd'
    by_cases hcopy : b = t.cells.length
    · rw [hcopy, hnew] at hd'
      cases hd'
      exact Nat.one_pos
    · obtain ⟨d, hd⟩ := hold b d' hcopy hd'
      rw [hcell b d hd] at hd'
      cases hd'
      have hpos := hs.live b d hd
      by_cases hb : b = a
      · rw [hb, hc] at hd
        cases hd
        simp only [if_pos hb]
        omega
      · simp only [if_neg hb]
        omega
  have hheads : ∀ j : ℕ, s'.heads[j]? =
      if prevNext = .head j then some (some t.cells.length) else s.heads[j]? := by
    intro j
    rw [(SharedChains.heads_setLink hs').2, hheadsu]
  have hkeeps : s.Keeps s' i := by
    refine .of_front hs hfront ?_ (fun j hj => ?_) fun j p l hj hp hl b hb hbpre d hd => ?_
    · rw [(SharedChains.heads_setLink hs').1, hheadsu]
    · rw [hheads, if_neg (hfront.link_ne_head hj)]
    · exact ⟨_, hcell b d hd, if_neg (hfront.link_ne_next hbpre), rfl⟩
  have hmid : (pre ++ t.cells.length :: post).Nodup :=
    List.nodup_middle.mpr (List.nodup_cons.mpr
      ⟨List.mem_append.not.mpr (not_or.mpr ⟨hcopypre, hcopypost⟩), hnodup⟩)
  obtain ⟨hfront', hpath', _⟩ := hfrontu.rejoin s' (.cons hnewu hpostu) hmid
    (by rw [hheads, hheadsu]) fun b _ d hd => by
      refine ⟨_, by rw [SharedChains.cell_setLink hs' b, hd, Option.map_some], ?_⟩
      split_ifs <;> exact ⟨rfl, fun _ => rfl, rfl⟩
  have hvalue : ∀ b, (∃ d, s.cell b = some d) →
      (s'.cell b).map Cell.value = (s.cell b).map Cell.value := by
    intro b hd
    obtain ⟨d, hd⟩ := hd
    rw [hcell b d hd, hd]
    rfl
  have hvaluespre : s'.values pre = s.values pre := SharedChains.values_congr fun b hb => by
    obtain ⟨d, hd, _⟩ := hfront.cell hb
    exact hvalue b ⟨d, hd⟩
  have hvaluespost : s'.values post = s.values post := SharedChains.values_congr fun b hb =>
    hvalue b (hpost.exists_cell hb)
  have hvaluescopy : s'.values (t.cells.length :: post) = v :: s.values post := by
    rw [SharedChains.values_cons hnew, hvaluespost]
  obtain ⟨p', hp', hpath⟩ := hfront'.path hpath'
  have hfrontcopy := SharedChains.Front.next hfront' hnew rfl
  refine ⟨t, u, s', ht, hu, hs', ?_, hfrontcopy, ?_, ?_, hvaluespost, ?_⟩
  · refine .of_counts hs ((counts_share ((hs.counts.decCount ht).alloc ⟨c.next, 1, v⟩) hu).setLink
      hfrontu.target hs') (fun b => ?_) hlive
      ((gone_share ((hs.gone.updates hupdates).alloc _) hu).setLink hs') hkeeps
      ⟨p', _, hp', hpath, ?_⟩
    · simp only [Option.some.injEq]
      split_ifs <;> omega
    · rw [SharedChains.values_append, hvaluespre, hvaluescopy]
  · cases hpath' with
    | cons hd hrest =>
      rw [hnew] at hd
      cases hd
      exact hrest
  · rw [SharedChains.values_append, hvaluespre, SharedChains.values_cons hnew]
    rfl
  · intro b hb
    obtain ⟨d, hd⟩ := hnext b hb
    refine ⟨_, hcell b d hd, ?_⟩
    have hne : b ≠ a := by
      rintro rfl
      rw [hb] at hpost
      cases hpost with
      | cons _ _ => exact hapost List.mem_cons_self
    have hpos := hs.live b d hd
    simp only [if_neg hne, if_pos hb]
    omega

end Steps

end PacketTagLists
end NetGymSim.Network

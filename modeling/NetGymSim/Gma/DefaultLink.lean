import NetGymSim.Gma.LinkState
import NetGymSim.Lib.Machine

/-!
# The default link

The default link is configured and then follows the failures and recoveries of links. The law
is that it is the registered link of highest priority among those that are up. The scan for
large ids starts from the largest id there is and so finds none, the scan for small ids never
takes that id, a link that comes up or is registered is compared with the default link even
when that one is down, and registering a link does not touch the default link.
-/

namespace NetGymSim.Gma
open NetGymSim.Lib

namespace LinkState

def addLinkCid (s : LinkState) (cid : Cid) : LinkState := { s with cidList := s.cidList ++ [cid] }

inductive LinkOp
  | addLinkCid (cid : Cid)
  /-- `CtrlMsgDown`, `LowRssiDown` and `LinkBitMapDown`. -/
  | down (cause : DownCause) (cid : Cid)
  /-- `CtrlMsgUp`, `HighRssiUp` and `LinkBitMapUp`. -/
  | up (cause : DownCause) (cid : Cid)
  deriving DecidableEq

def apply (s : LinkState) : LinkOp → LinkState
  | .addLinkCid cid => s.addLinkCid cid
  | .down cause cid => (s.markDown cause cid).1
  | .up cause cid => (s.markUp cause cid).1

def machine : Machine LinkState LinkOp := ⟨fun _ _ => True, apply⟩

/-- `m_preferLargeCidValue` says which ids have the higher priority. -/
def higher (s : LinkState) (a b : Cid) : Prop :=
  if s.preferLargeCidValue then b < a else a < b

instance (s : LinkState) (a b : Cid) : Decidable (s.higher a b) := by
  unfold higher
  infer_instance

def upLinks (s : LinkState) : List Cid := s.cidList.filter s.isLinkUp

def DefaultLaw (s : LinkState) : Prop :=
  s.upLinks ≠ [] → s.defaultLinkCid ∈ s.upLinks ∧ ∀ c ∈ s.upLinks, ¬ s.higher c s.defaultLinkCid

def comesUp (s : LinkState) (cause : DownCause) (cid : Cid) : Prop :=
  ∀ c, cid ∈ s.downMap c ↔ c = cause

def keepsDefault (s : LinkState) : LinkOp → Prop
  /- A link that is up when it is registered is the default link or has a lower priority than
  the default link, which is up. -/
  | .addLinkCid cid => s.isLinkUp cid →
      cid = s.defaultLinkCid ∨ s.upLinks ≠ [] ∧ ¬ s.higher cid s.defaultLinkCid
  /- The default link goes down only as the last one, or when small ids have priority and a
  link with an id below 255 is left. -/
  | .down _ cid => cid = s.defaultLinkCid → (∃ c ∈ s.upLinks, c ≠ cid) →
      s.preferLargeCidValue = false ∧ ∃ c ∈ s.upLinks, c ≠ cid ∧ c ≠ uint8Max
  /- The first registered link to come back is the default link or one of higher priority, and
  no link that is not registered has a higher priority than the default link. -/
  | .up cause cid => s.comesUp cause cid →
      if cid ∈ s.cidList then
        s.upLinks = [] → cid = s.defaultLinkCid ∨ s.higher cid s.defaultLinkCid
      else s.upLinks ≠ [] → ¬ s.higher cid s.defaultLinkCid

section Scan
variable (s : LinkState) {cid c : Cid}

theorem mem_upLinks : c ∈ s.upLinks ↔ c ∈ s.cidList ∧ s.isLinkUp c := List.mem_filter

theorem maxOkCid_eq : s.maxOkCid = uint8Max := by
  have key : ∀ l : List Cid, l.foldl
      (fun best cid => if s.isLinkUp cid ∧ cid > best then cid else best) uint8Max = uint8Max := by
    intro l
    induction l with
    | nil => rfl
    | cons c l ih =>
      have hc : ¬ (s.isLinkUp c ∧ c > uint8Max) := fun h => absurd h.2 (not_lt.mpr (Fin.le_last c))
      rw [List.foldl_cons, if_neg hc]
      exact ih
  exact key s.cidList

theorem minOkCid_spec : (∀ c ∈ s.upLinks, s.minOkCid ≤ c) ∧
    (s.minOkCid = uint8Max ∨ s.minOkCid ∈ s.upLinks) := by
  have key : ∀ (l : List Cid) (best : Cid),
      let r := l.foldl (fun best cid => if s.isLinkUp cid ∧ cid < best then cid else best) best
      r ≤ best ∧ (∀ c ∈ l.filter s.isLinkUp, r ≤ c) ∧ (r = best ∨ r ∈ l.filter s.isLinkUp) := by
    intro l
    induction l with
    | nil => simp
    | cons a l ih =>
      intro best
      obtain ⟨hle, hall, hmem⟩ := ih (if s.isLinkUp a ∧ a < best then a else best)
      rw [List.foldl_cons]
      by_cases ha : s.isLinkUp a
      · rw [List.filter_cons_of_pos ha]
        by_cases hlt : a < best
        · rw [if_pos ⟨ha, hlt⟩] at hle hall hmem ⊢
          refine ⟨hle.trans hlt.le, ?_, .inr ?_⟩
          · exact List.forall_mem_cons.mpr ⟨hle, hall⟩
          · rcases hmem with heq | hmem
            · rw [heq]
              exact List.mem_cons_self
            · exact List.mem_cons_of_mem _ hmem
        · rw [if_neg fun h => hlt h.2] at hle hall hmem ⊢
          refine ⟨hle, ?_, hmem.imp_right (List.mem_cons_of_mem _)⟩
          exact List.forall_mem_cons.mpr ⟨hle.trans (not_lt.mp hlt), hall⟩
      · rw [List.filter_cons_of_neg ha]
        rw [if_neg fun h => ha h.1] at hle hall hmem ⊢
        exact ⟨hle, hall, hmem⟩
  exact (key s.cidList uint8Max).2

end Scan

section Steps
variable {s : LinkState} {cause : DownCause} {cid c : Cid}

theorem higher_irrefl (s : LinkState) (c : Cid) : ¬ s.higher c c := by
  unfold higher
  split <;> exact lt_irrefl c

theorem not_higher_trans {a b : Cid} (hc : ¬ s.higher c b) (ha : s.higher a b) :
    ¬ s.higher c a := by
  unfold higher at hc ha ⊢
  split_ifs at hc ha ⊢
  · exact fun h => hc (ha.trans h)
  · exact fun h => hc (h.trans ha)

theorem isLinkUp_markDown : (s.markDown cause cid).1.isLinkUp c ↔ s.isLinkUp c ∧ c ≠ cid := by
  rw [isLinkUp_iff, isLinkUp_iff, markDown_downMap]
  constructor
  · intro h
    refine ⟨fun d hd => h d ?_, ?_⟩
    · by_cases hdc : d = cause
      · subst d
        rw [Function.update_self]
        exact Finset.mem_insert_of_mem hd
      · rwa [Function.update_of_ne hdc]
    · rintro rfl
      refine h cause ?_
      rw [Function.update_self]
      exact Finset.mem_insert_self _ _
  · rintro ⟨h, hne⟩ d hd
    by_cases hdc : d = cause
    · subst d
      rw [Function.update_self] at hd
      exact h cause ((Finset.mem_insert.mp hd).resolve_left hne)
    · rw [Function.update_of_ne hdc] at hd
      exact h d hd

theorem mem_upLinks_markDown : c ∈ (s.markDown cause cid).1.upLinks ↔ c ∈ s.upLinks ∧ c ≠ cid := by
  rw [mem_upLinks, mem_upLinks, markDown_cidList, isLinkUp_markDown, and_assoc]

theorem isLinkUp_markUp : (s.markUp cause cid).1.isLinkUp c ↔
    s.isLinkUp c ∨ c = cid ∧ s.comesUp cause cid := by
  rw [isLinkUp_iff, isLinkUp_iff, markUp_downMap]
  constructor
  · intro h
    by_cases hcid : c = cid
    · subst c
      by_cases hin : cid ∈ s.downMap cause
      · refine .inr ⟨rfl, fun d => ⟨fun hd => ?_, fun hd => hd ▸ hin⟩⟩
        by_contra hdc
        have := h d
        rw [Function.update_of_ne hdc] at this
        exact this hd
      · refine .inl fun d hd => ?_
        by_cases hdc : d = cause
        · subst d
          exact hin hd
        · have := h d
          rw [Function.update_of_ne hdc] at this
          exact this hd
    · refine .inl fun d hd => h d ?_
      by_cases hdc : d = cause
      · subst d
        rw [Function.update_self]
        exact Finset.mem_erase.mpr ⟨hcid, hd⟩
      · rwa [Function.update_of_ne hdc]
  · intro h d hd
    by_cases hdc : d = cause
    · subst d
      rw [Function.update_self] at hd
      obtain ⟨hne, hmem⟩ := Finset.mem_erase.mp hd
      rcases h with h | ⟨rfl, _⟩
      · exact h cause hmem
      · exact hne rfl
    · rw [Function.update_of_ne hdc] at hd
      rcases h with h | ⟨rfl, hup⟩
      · exact h d hd
      · exact hdc ((hup d).mp hd)

theorem mem_upLinks_markUp : c ∈ (s.markUp cause cid).1.upLinks ↔
    c ∈ s.upLinks ∨ c = cid ∧ cid ∈ s.cidList ∧ s.comesUp cause cid := by
  rw [mem_upLinks, mem_upLinks, markUp_cidList, isLinkUp_markUp]
  constructor
  · rintro ⟨hmem, hup | ⟨rfl, hup⟩⟩
    · exact .inl ⟨hmem, hup⟩
    · exact .inr ⟨rfl, hmem, hup⟩
  · rintro (⟨hmem, hup⟩ | ⟨rfl, hmem, hup⟩)
    · exact ⟨hmem, .inl hup⟩
    · exact ⟨hmem, .inr ⟨rfl, hup⟩⟩

theorem setLinkDown_attributes : (s.setLinkDown cid).1.preferLargeCidValue = s.preferLargeCidValue ∧
    (s.setLinkDown cid).1.fixDefaultLink = s.fixDefaultLink := by
  simp only [setLinkDown]
  split_ifs <;> exact ⟨rfl, rfl⟩

theorem setLinkUp_attributes : (s.setLinkUp cid).preferLargeCidValue = s.preferLargeCidValue ∧
    (s.setLinkUp cid).fixDefaultLink = s.fixDefaultLink := by
  simp only [setLinkUp]
  split_ifs <;> exact ⟨rfl, rfl⟩

theorem apply_attributes (op : LinkOp) : (s.apply op).preferLargeCidValue = s.preferLargeCidValue ∧
    (s.apply op).fixDefaultLink = s.fixDefaultLink := by
  cases op with
  | addLinkCid cid => exact ⟨rfl, rfl⟩
  | down cause cid =>
    simp only [apply, markDown]
    split_ifs
    · exact setLinkDown_attributes
    · exact ⟨rfl, rfl⟩
  | up cause cid =>
    simp only [apply, markUp]
    split_ifs
    · exact setLinkUp_attributes
    · exact ⟨rfl, rfl⟩
    · exact ⟨rfl, rfl⟩

theorem higher_apply (op : LinkOp) (a b : Cid) : (s.apply op).higher a b ↔ s.higher a b := by
  unfold higher
  rw [apply_attributes op |>.1]

theorem setLinkDown_default_of_ne (hne : cid ≠ s.defaultLinkCid) :
    (s.setLinkDown cid).1.defaultLinkCid = s.defaultLinkCid := by
  simp only [setLinkDown, if_neg hne]
  split_ifs <;> rfl

theorem markDown_default_of_ne (hne : cid ≠ s.defaultLinkCid) :
    (s.markDown cause cid).1.defaultLinkCid = s.defaultLinkCid := by
  simp only [markDown]
  split_ifs
  · exact setLinkDown_default_of_ne hne
  · rfl

theorem upLinks_congr {t : LinkState} (hl : t.cidList = s.cidList) (hd : t.downMap = s.downMap) :
    t.upLinks = s.upLinks := by
  have hup : t.isLinkUp = s.isLinkUp := by
    funext c
    simp only [isLinkUp, hd]
  rw [upLinks, upLinks, hl, hup]

theorem setLinkDown_default (hfix : s.fixDefaultLink = false) :
    let t := (s.setLinkDown s.defaultLinkCid).1
    t.defaultLinkCid = s.defaultLinkCid ∧
        (s.preferLargeCidValue = false → ∀ c ∈ s.upLinks, c = uint8Max) ∨
      s.preferLargeCidValue = false ∧ t.defaultLinkCid ∈ s.upLinks ∧
        t.defaultLinkCid ≠ uint8Max ∧ ∀ c ∈ s.upLinks, t.defaultLinkCid ≤ c := by
  obtain ⟨hall, hmem⟩ := s.minOkCid_spec
  simp only [setLinkDown, hfix, Bool.false_eq_true, if_false, if_true]
  cases hp : s.preferLargeCidValue with
  | true =>
    rw [if_pos rfl, if_neg (not_not.mpr s.maxOkCid_eq)]
    exact .inl ⟨rfl, fun h => by cases h⟩
  | false =>
    rw [if_neg Bool.false_ne_true]
    by_cases hmax : s.minOkCid = uint8Max
    · rw [if_neg (not_not.mpr hmax)]
      refine .inl ⟨rfl, fun _ c hc => ?_⟩
      exact le_antisymm (Fin.le_last c) (hmax ▸ hall c hc)
    · rw [if_pos hmax]
      exact .inr ⟨rfl, hmem.resolve_left hmax, hmax, hall⟩

theorem markDown_default (hfix : s.fixDefaultLink = false) (hup : s.isLinkUp s.defaultLinkCid) :
    let t := (s.markDown cause s.defaultLinkCid).1
    t.defaultLinkCid = s.defaultLinkCid ∧
        (s.preferLargeCidValue = false → ∀ c ∈ t.upLinks, c = uint8Max) ∨
      s.preferLargeCidValue = false ∧ t.defaultLinkCid ∈ t.upLinks ∧
        t.defaultLinkCid ≠ uint8Max ∧ ∀ c ∈ t.upLinks, t.defaultLinkCid ≤ c := by
  simp only [markDown, if_pos hup]
  rw [upLinks_congr (setLinkDown_cidList _ _) (setLinkDown_downMap _ _)]
  exact setLinkDown_default hfix

theorem setLinkUp_default (hfix : s.fixDefaultLink = false) : (s.setLinkUp cid).defaultLinkCid =
    if s.higher cid s.defaultLinkCid then cid else s.defaultLinkCid := by
  simp only [setLinkUp, hfix, higher, Bool.false_eq_true, if_false]
  split_ifs <;> rfl

theorem record_downMap (cids : Finset Cid) :
    (s.record cause cids).downMap = Function.update s.downMap cause cids := rfl

theorem comesUp_iff : s.comesUp cause cid ↔ cid ∈ s.downMap cause ∧
    (s.record cause ((s.downMap cause).erase cid)).isLinkUp cid := by
  rw [isLinkUp_iff, record_downMap]
  constructor
  · intro h
    refine ⟨(h cause).mpr rfl, fun d hd => ?_⟩
    by_cases hdc : d = cause
    · subst d
      simp at hd
    · rw [Function.update_of_ne hdc] at hd
      exact hdc ((h d).mp hd)
  · rintro ⟨hin, h⟩ d
    refine ⟨fun hd => ?_, fun hd => hd ▸ hin⟩
    by_contra hdc
    have := h d
    rw [Function.update_of_ne hdc] at this
    exact this hd

theorem markUp_default (hfix : s.fixDefaultLink = false) :
    (s.comesUp cause cid → (s.markUp cause cid).1.defaultLinkCid =
      if s.higher cid s.defaultLinkCid then cid else s.defaultLinkCid) ∧
    (¬ s.comesUp cause cid → (s.markUp cause cid).1.defaultLinkCid = s.defaultLinkCid) := by
  rw [comesUp_iff]
  constructor
  · rintro ⟨hin, hup⟩
    have hdown : ¬ s.isLinkUp cid := fun h => (s.isLinkUp_iff cid).mp h cause hin
    simp only [markUp, if_pos (show ¬ _ ∧ _ from ⟨hdown, hin⟩), if_pos hup]
    exact setLinkUp_default hfix
  · intro h
    simp only [markUp]
    split_ifs with h1 h2
    · exact absurd ⟨h1.2, h2⟩ h
    · rfl
    · rfl

theorem law_of_mem {t : LinkState} (hmem : t.defaultLinkCid ∈ t.upLinks)
    (hmax : ∀ c ∈ t.upLinks, ¬ t.higher c t.defaultLinkCid) : t.DefaultLaw :=
  fun _ => ⟨hmem, hmax⟩

theorem upLinks_ne_nil (hc : c ∈ s.upLinks) : s.upLinks ≠ [] := List.ne_nil_of_mem hc

theorem mem_upLinks_addLinkCid : c ∈ (s.apply (.addLinkCid cid)).upLinks ↔
    c ∈ s.upLinks ∨ c = cid ∧ s.isLinkUp cid := by
  simp only [upLinks, apply, addLinkCid, List.mem_filter, List.mem_append, List.mem_singleton]
  constructor
  · rintro ⟨hc | rfl, hup⟩
    · exact .inl ⟨hc, hup⟩
    · exact .inr ⟨rfl, hup⟩
  · rintro (⟨hc, hup⟩ | ⟨rfl, hup⟩)
    · exact ⟨.inl hc, hup⟩
    · exact ⟨.inr rfl, hup⟩

theorem apply_addLinkCid (hlaw : s.DefaultLaw) :
    (s.apply (.addLinkCid cid)).DefaultLaw ↔ s.keepsDefault (.addLinkCid cid) := by
  have hd : (s.apply (.addLinkCid cid)).defaultLinkCid = s.defaultLinkCid := rfl
  constructor
  · intro h hup
    have hcid : cid ∈ (s.apply (.addLinkCid cid)).upLinks :=
      mem_upLinks_addLinkCid.mpr (.inr ⟨rfl, hup⟩)
    obtain ⟨hmem, hmax⟩ := h (upLinks_ne_nil hcid)
    rw [hd] at hmem hmax
    rcases mem_upLinks_addLinkCid.mp hmem with hmem | ⟨heq, _⟩
    · refine .inr ⟨upLinks_ne_nil hmem, ?_⟩
      rw [← higher_apply (.addLinkCid cid)]
      exact hmax cid hcid
    · exact .inl heq.symm
  · intro h hne
    rw [hd]
    have hold : s.upLinks ≠ [] → s.defaultLinkCid ∈ (s.apply (.addLinkCid cid)).upLinks :=
      fun hne => mem_upLinks_addLinkCid.mpr (.inl (hlaw hne).1)
    constructor
    · obtain ⟨c, hc⟩ := List.exists_mem_of_ne_nil _ hne
      rcases mem_upLinks_addLinkCid.mp hc with hc | ⟨rfl, hup⟩
      · exact hold (upLinks_ne_nil hc)
      · rcases h hup with rfl | ⟨hne, _⟩
        · exact hc
        · exact hold hne
    · intro c hc
      rw [higher_apply]
      rcases mem_upLinks_addLinkCid.mp hc with hc | ⟨rfl, hup⟩
      · exact (hlaw (upLinks_ne_nil hc)).2 c hc
      · rcases h hup with rfl | ⟨_, hlow⟩
        · exact higher_irrefl _ _
        · exact hlow

theorem apply_down (hfix : s.fixDefaultLink = false) (hlaw : s.DefaultLaw) :
    (s.apply (.down cause cid)).DefaultLaw ↔ s.keepsDefault (.down cause cid) := by
  by_cases hd : cid = s.defaultLinkCid
  · subst hd
    by_cases hleft : ∃ c ∈ s.upLinks, c ≠ s.defaultLinkCid
    · obtain ⟨c, hc, hne⟩ := hleft
      have hup := (s.mem_upLinks.mp (hlaw (upLinks_ne_nil hc)).1).2
      have hc' : c ∈ (s.markDown cause s.defaultLinkCid).1.upLinks :=
        mem_upLinks_markDown.mpr ⟨hc, hne⟩
      have hout : s.defaultLinkCid ∉ (s.apply (.down cause s.defaultLinkCid)).upLinks :=
        fun h => (mem_upLinks_markDown.mp h).2 rfl
      have hmarked : (s.markDown cause s.defaultLinkCid).1.defaultLinkCid = _ ∧ _ ∨ _ :=
        markDown_default hfix hup
      rcases hmarked with ⟨hsame, hall⟩ | ⟨hp, hmem, hlt, hall⟩
      · constructor
        · intro h
          have hin := (h (upLinks_ne_nil hc')).1
          have hd : (s.apply (.down cause s.defaultLinkCid)).defaultLinkCid = s.defaultLinkCid :=
            hsame
          rw [hd] at hin
          exact absurd hin hout
        · intro h
          obtain ⟨hp, d, hd, hne, hmax⟩ := h rfl ⟨c, hc, hne⟩
          exact absurd (hall hp d (mem_upLinks_markDown.mpr ⟨hd, hne⟩)) hmax
      · refine iff_of_true (law_of_mem hmem fun c hc => ?_) fun _ _ => ⟨hp, ?_⟩
        · rw [higher_apply, higher, hp]
          exact not_lt.mpr (hall c hc)
        · obtain ⟨hold, hne⟩ := mem_upLinks_markDown.mp hmem
          exact ⟨_, hold, hne, hlt⟩
    · refine iff_of_true (fun hne => ?_) fun _ h => absurd h hleft
      obtain ⟨c, hc⟩ := List.exists_mem_of_ne_nil _ hne
      exact absurd ⟨c, mem_upLinks_markDown.mp hc⟩ hleft
  · refine iff_of_true (fun hne => ?_) fun h => absurd h hd
    obtain ⟨c, hc⟩ := List.exists_mem_of_ne_nil _ hne
    obtain ⟨hmem, hmax⟩ := hlaw (upLinks_ne_nil (mem_upLinks_markDown.mp hc).1)
    rw [show (s.apply (.down cause cid)).defaultLinkCid = _ from markDown_default_of_ne hd]
    refine ⟨mem_upLinks_markDown.mpr ⟨hmem, Ne.symm hd⟩, fun c hc => ?_⟩
    rw [higher_apply]
    exact hmax c (mem_upLinks_markDown.mp hc).1

theorem apply_up (hfix : s.fixDefaultLink = false) (hlaw : s.DefaultLaw) :
    (s.apply (.up cause cid)).DefaultLaw ↔ s.keepsDefault (.up cause cid) := by
  have hmarked : (s.comesUp cause cid → _) ∧ (¬ s.comesUp cause cid → _) := markUp_default hfix
  obtain ⟨hyes, hno⟩ := hmarked
  by_cases hup : s.comesUp cause cid
  · have hd : (s.apply (.up cause cid)).defaultLinkCid = _ := hyes hup
    by_cases hreg : cid ∈ s.cidList
    · have hcid : cid ∈ (s.apply (.up cause cid)).upLinks :=
        mem_upLinks_markUp.mpr (.inr ⟨rfl, hreg, hup⟩)
      by_cases hh : s.higher cid s.defaultLinkCid
      · rw [if_pos hh] at hd
        refine iff_of_true (law_of_mem (hd.symm ▸ hcid) fun c hc => ?_) fun _ => ?_
        · rw [higher_apply, hd]
          rcases mem_upLinks_markUp.mp hc with hc | ⟨rfl, _⟩
          · exact not_higher_trans ((hlaw (upLinks_ne_nil hc)).2 c hc) hh
          · exact higher_irrefl _ _
        · rw [if_pos hreg]
          exact fun _ => .inr hh
      · rw [if_neg hh] at hd
        constructor
        · intro h _
          rw [if_pos hreg]
          intro hnil
          have hmem := (h (upLinks_ne_nil hcid)).1
          rw [hd] at hmem
          rcases mem_upLinks_markUp.mp hmem with hmem | ⟨heq, _⟩
          · exact absurd hnil (upLinks_ne_nil hmem)
          · exact .inl heq.symm
        · intro h
          have hone : s.upLinks = [] → cid = s.defaultLinkCid := by
            intro hnil
            have := h hup
            rw [if_pos hreg] at this
            exact (this hnil).resolve_right hh
          refine law_of_mem ?_ fun c hc => ?_
          · rw [hd]
            by_cases hnil : s.upLinks = []
            · exact hone hnil ▸ hcid
            · exact mem_upLinks_markUp.mpr (.inl (hlaw hnil).1)
          · rw [higher_apply, hd]
            rcases mem_upLinks_markUp.mp hc with hc | ⟨rfl, _⟩
            · exact (hlaw (upLinks_ne_nil hc)).2 c hc
            · exact hh
    · have hsame : ∀ c, c ∈ (s.apply (.up cause cid)).upLinks ↔ c ∈ s.upLinks := by
        intro c
        rw [show c ∈ (s.apply (.up cause cid)).upLinks ↔ _ from mem_upLinks_markUp]
        exact or_iff_left fun h => hreg h.2.1
      constructor
      · intro h _
        rw [if_neg hreg]
        intro hne hh
        rw [if_pos hh] at hd
        obtain ⟨c, hc⟩ := List.exists_mem_of_ne_nil _ hne
        have hmem := (h (upLinks_ne_nil ((hsame c).mpr hc))).1
        rw [hd, hsame, mem_upLinks] at hmem
        exact hreg hmem.1
      · intro h hne
        obtain ⟨c, hc⟩ := List.exists_mem_of_ne_nil _ hne
        have hold := upLinks_ne_nil ((hsame c).mp hc)
        have hh := h hup
        rw [if_neg hreg] at hh
        rw [if_neg (hh hold)] at hd
        rw [hd]
        refine ⟨(hsame _).mpr (hlaw hold).1, fun c hc => ?_⟩
        rw [higher_apply]
        exact (hlaw hold).2 c ((hsame c).mp hc)
  · refine iff_of_true (fun hne => ?_) fun h => absurd h hup
    obtain ⟨c, hc⟩ := List.exists_mem_of_ne_nil _ hne
    have hsame : ∀ c, c ∈ (s.apply (.up cause cid)).upLinks → c ∈ s.upLinks :=
      fun c hc => (mem_upLinks_markUp.mp hc).resolve_right fun h => hup h.2.2
    obtain ⟨hmem, hmax⟩ := hlaw (upLinks_ne_nil (hsame c hc))
    rw [show (s.apply (.up cause cid)).defaultLinkCid = _ from hno hup]
    refine ⟨mem_upLinks_markUp.mpr (.inl hmem), fun c hc => ?_⟩
    rw [higher_apply]
    exact hmax c (hsame c hc)

theorem apply_law (hfix : s.fixDefaultLink = false) (hlaw : s.DefaultLaw) (op : LinkOp) :
    (s.apply op).DefaultLaw ↔ s.keepsDefault op := by
  cases op with
  | addLinkCid cid => exact apply_addLinkCid hlaw
  | down cause cid => exact apply_down hfix hlaw
  | up cause cid => exact apply_up hfix hlaw

end Steps

def initial (defaultLinkCid : Cid) (preferLargeCidValue : Bool) : LinkState :=
  { cidList := [], defaultLinkCid, preferLargeCidValue }

/-- The law holds after every step of a run exactly when each step keeps it. -/
theorem default_link_law (defaultLinkCid : Cid) (preferLarge : Bool) (ops : List LinkOp) :
    (machine.restrict keepsDefault).Permits (initial defaultLinkCid preferLarge) ops ↔
      ∀ done, done <+: ops → (machine.exec (initial defaultLinkCid preferLarge) done).DefaultLaw :=
  Machine.permits_restrict_iff (Q := fun s : LinkState => s.fixDefaultLink = false)
    (fun _ _ => trivial) (fun _ op hfix => (apply_attributes op).2.trans hfix)
    (fun _ op hfix hlaw => apply_law hfix hlaw op) rfl (fun h => absurd rfl h) ops

/-- The scan for large ids finds no link when the default link fails. -/
theorem default_stays_on_failed_link : ¬ (machine.exec (initial 11 true)
    [.addLinkCid 11, .addLinkCid 0, .down .lowQuality 11]).DefaultLaw := by
  intro h
  have hup : (machine.exec (initial 11 true)
      [.addLinkCid 11, .addLinkCid 0, .down .lowQuality 11]).upLinks = [0] := by decide
  have hmem := (h (by rw [hup]; exact List.cons_ne_nil _ _)).1
  rw [hup] at hmem
  revert hmem
  decide

end LinkState
end NetGymSim.Gma

import Mathlib.Data.Int.Basic
import Mathlib.Data.List.Nodup
import Mathlib.Data.List.Perm.Subperm
import Mathlib.Tactic.Common

/-!
# Chains of counted cells with shared tails

Every owner has a head link to a chain of cells, and chains may run together. Each cell counts the
links that lead to it. The operations touch one cell or one link and are missing for a cell that
is not live; the count of a cell then differs from the number of its links by a weight, which the
operations change one after the other until it is zero again.
-/

namespace NetGymSim.Lib

structure Cell (α : Type*) where
  next : Option ℕ
  count : ℕ
  value : α

/-- A cell that was freed is missing, and its address is not used again. -/
structure SharedChains (α : Type*) where
  cells : List (Option (Cell α))
  heads : List (Option ℕ)
  freed : List ℕ

inductive Link
  | head (i : ℕ)
  | next (a : ℕ)
deriving DecidableEq

namespace SharedChains
variable {α : Type*}

def cell (s : SharedChains α) (a : ℕ) : Option (Cell α) := s.cells[a]?.join

def setCell (s : SharedChains α) (a : ℕ) (c : Option (Cell α)) : SharedChains α :=
  { s with cells := s.cells.set a c }

def target (s : SharedChains α) : Link → Option (Option ℕ)
  | .head i => s.heads[i]?
  | .next a => (s.cell a).map Cell.next

def setLink (s : SharedChains α) (link : Link) (p : Option ℕ) : Option (SharedChains α) :=
  match link with
  | .head i => if i < s.heads.length then some { s with heads := s.heads.set i p } else none
  | .next a => (s.cell a).map fun c => s.setCell a (some { c with next := p })

def incCount (s : SharedChains α) (a : ℕ) : Option (SharedChains α) :=
  (s.cell a).map fun c => s.setCell a (some { c with count := c.count + 1 })

def decCount (s : SharedChains α) (a : ℕ) : Option (SharedChains α) :=
  (s.cell a).bind fun c =>
    if c.count = 0 then none else some (s.setCell a (some { c with count := c.count - 1 }))

def alloc (s : SharedChains α) (c : Cell α) : ℕ × SharedChains α :=
  (s.cells.length, { s with cells := s.cells ++ [some c] })

def free (s : SharedChains α) (a : ℕ) : Option (SharedChains α) :=
  (s.cell a).map fun _ => { s.setCell a none with freed := s.freed ++ [a] }

def links (s : SharedChains α) (a : ℕ) : ℕ :=
  s.heads.count (some a) + (s.cells.map fun c => c.bind Cell.next).count (some a)

/-- The count of a cell; nothing leads to a cell that is not live. -/
def countOf (s : SharedChains α) (a : ℕ) : ℕ := (s.cell a).elim 0 Cell.count

def Counts (s : SharedChains α) (w : ℕ → ℤ) : Prop :=
  ∀ a, (s.countOf a : ℤ) = s.links a + w a

/-- The addresses that were freed are those of the cells that are gone, each once. -/
structure Gone (s : SharedChains α) : Prop where
  nodup : s.freed.Nodup
  mem : ∀ a, a ∈ s.freed ↔ a < s.cells.length ∧ s.cell a = none

inductive Path (s : SharedChains α) : Option ℕ → List ℕ → Prop
  | nil : Path s none []
  | cons {a : ℕ} {c : Cell α} {l : List ℕ} :
      s.cell a = some c → Path s c.next l → Path s (some a) (a :: l)

def values (s : SharedChains α) (l : List ℕ) : List α :=
  l.filterMap fun a => (s.cell a).map Cell.value

/-- The owner `i` leads along cells with a count of one to this link and what it points to. -/
inductive Front (s : SharedChains α) (i : ℕ) : List ℕ → Link → Option ℕ → Prop
  | head {p : Option ℕ} : s.heads[i]? = some p → Front s i [] (.head i) p
  | next {pre : List ℕ} {link : Link} {a : ℕ} {c : Cell α} :
      Front s i pre link (some a) → s.cell a = some c → c.count = 1 →
      Front s i (pre ++ [a]) (.next a) c.next

variable {s s' : SharedChains α} {a b i : ℕ} {c c' : Cell α} {p q : Option ℕ} {l pre : List ℕ}
  {link : Link}

theorem cell_lt (h : s.cell a = some c) : a < s.cells.length := by
  by_contra hge
  rw [cell, List.getElem?_eq_none (Nat.not_lt.mp hge)] at h
  cases h

theorem cell_setCell (h : a < s.cells.length) (d : Option (Cell α)) (b : ℕ) :
    (s.setCell a d).cell b = if b = a then d else s.cell b := by
  unfold cell setCell
  by_cases hb : b = a
  · rw [if_pos hb, hb, List.getElem?_set_self h]
    rfl
  · rw [if_neg hb, List.getElem?_set_ne (Ne.symm hb)]

theorem cell_alloc (d : Cell α) (b : ℕ) :
    (s.alloc d).2.cell b = if b = s.cells.length then some d else s.cell b := by
  unfold cell alloc
  by_cases hb : b = s.cells.length
  · rw [if_pos hb, hb, List.getElem?_concat_length]
    rfl
  · rw [if_neg hb]
    cases Nat.lt_or_gt_of_ne hb with
    | inl hlt => rw [List.getElem?_append_left hlt]
    | inr hgt =>
      rw [List.getElem?_eq_none (Nat.le_of_lt hgt), List.getElem?_eq_none]
      rw [List.length_append, List.length_singleton]
      exact hgt

section Operations

theorem incCount_of (h : s.cell a = some c) :
    s.incCount a = some (s.setCell a (some { c with count := c.count + 1 })) := by
  rw [incCount, h, Option.map_some]

theorem decCount_of (h : s.cell a = some c) (hc : 0 < c.count) :
    s.decCount a = some (s.setCell a (some { c with count := c.count - 1 })) := by
  rw [decCount, h, Option.bind_some, if_neg (Nat.ne_of_gt hc)]

theorem free_of (h : s.cell a = some c) :
    s.free a = some { s.setCell a none with freed := s.freed ++ [a] } := by
  rw [free, h, Option.map_some]

theorem exists_setLink (h : s.target link = some p) (q : Option ℕ) :
    ∃ s', s.setLink link q = some s' := by
  cases link with
  | head i =>
    have hi : i < s.heads.length := (List.getElem?_eq_some_iff.mp h).1
    exact ⟨_, if_pos hi⟩
  | next a =>
    obtain ⟨c, hc, _⟩ := Option.map_eq_some_iff.mp h
    exact ⟨_, by rw [setLink, hc, Option.map_some]⟩

theorem cell_setLink (h : s.setLink link q = some s') (b : ℕ) :
    s'.cell b = (s.cell b).map fun c => if link = .next b then { c with next := q } else c := by
  cases link with
  | head i =>
    rw [setLink] at h
    split_ifs at h
    cases h
    show s.cell b = _
    cases s.cell b with
    | none => rfl
    | some c => rfl
  | next a =>
    obtain ⟨c, hc, hs'⟩ := Option.map_eq_some_iff.mp h
    rw [← hs', cell_setCell (cell_lt hc)]
    by_cases hb : b = a
    · rw [if_pos hb, hb, hc]
      simp
    · rw [if_neg hb]
      cases s.cell b with
      | none => rfl
      | some d => simp [Ne.symm hb]

theorem heads_setLink (h : s.setLink link q = some s') :
    s'.heads.length = s.heads.length ∧
      ∀ j, s'.heads[j]? = if link = .head j then some q else s.heads[j]? := by
  cases link with
  | head i =>
    rw [setLink] at h
    split_ifs at h with hi
    cases h
    refine ⟨List.length_set, fun j => ?_⟩
    by_cases hj : i = j
    · rw [← hj, if_pos rfl]
      exact List.getElem?_set_self hi
    · rw [if_neg (by simpa using hj)]
      exact List.getElem?_set_ne hj
  | next a =>
    obtain ⟨c, hc, hs'⟩ := Option.map_eq_some_iff.mp h
    rw [← hs']
    refine ⟨rfl, fun j => ?_⟩
    rw [if_neg nofun]
    rfl

theorem target_setLink (h : s.target link = some p) (hs' : s.setLink link q = some s') :
    s'.target link = some q := by
  cases link with
  | head i => rw [target, (heads_setLink hs').2 i, if_pos rfl]
  | next a =>
    obtain ⟨c, hc, _⟩ := Option.map_eq_some_iff.mp h
    rw [target, cell_setLink hs' a, hc]
    simp

/-- A cell is replaced by one at the same address. -/
structure Updates (s s' : SharedChains α) (a : ℕ) (f : Cell α → Cell α) : Prop where
  cell : ∀ b, s'.cell b = (s.cell b).map fun c => if b = a then f c else c
  heads : s'.heads = s.heads
  length : s'.cells.length = s.cells.length
  freed : s'.freed = s.freed

theorem Updates.of_setCell (h : s.cell a = some c) (f : Cell α → Cell α) :
    s.Updates (s.setCell a (some (f c))) a f := by
  refine ⟨fun b => ?_, rfl, List.length_set, rfl⟩
  rw [cell_setCell (cell_lt h)]
  by_cases hb : b = a
  · rw [if_pos hb, hb, h]
    simp
  · rw [if_neg hb]
    cases s.cell b with
    | none => rfl
    | some d => simp [hb]

theorem updates_incCount (hs' : s.incCount a = some s') :
    s.Updates s' a fun c => { c with count := c.count + 1 } := by
  obtain ⟨c, hc, rfl⟩ := Option.map_eq_some_iff.mp hs'
  exact Updates.of_setCell hc fun c => { c with count := c.count + 1 }

theorem updates_decCount (hs' : s.decCount a = some s') :
    s.Updates s' a fun c => { c with count := c.count - 1 } := by
  obtain ⟨c, hc, hs'⟩ := Option.bind_eq_some_iff.mp hs'
  split_ifs at hs'
  cases hs'
  exact Updates.of_setCell hc fun c => { c with count := c.count - 1 }

theorem length_setLink (hs' : s.setLink link q = some s') :
    s'.cells.length = s.cells.length ∧ s'.freed = s.freed := by
  cases link with
  | head i =>
    rw [setLink] at hs'
    split_ifs at hs'
    cases hs'
    exact ⟨rfl, rfl⟩
  | next a =>
    obtain ⟨c, _, rfl⟩ := Option.map_eq_some_iff.mp hs'
    exact ⟨List.length_set, rfl⟩

theorem Gone.of_same (h : s.Gone) (hlength : s'.cells.length = s.cells.length)
    (hfreed : s'.freed = s.freed) (hcell : ∀ b, s'.cell b = none ↔ s.cell b = none) : s'.Gone :=
  ⟨hfreed ▸ h.nodup, fun b => by rw [hfreed, hlength, hcell, h.mem b]⟩

theorem Gone.updates {f : Cell α → Cell α} (h : s.Gone) (hs' : s.Updates s' a f) : s'.Gone := by
  refine h.of_same hs'.length hs'.freed fun b => ?_
  rw [hs'.cell b, Option.map_eq_none_iff]

theorem Gone.setLink (h : s.Gone) (hs' : s.setLink link q = some s') : s'.Gone := by
  refine h.of_same (length_setLink hs').1 (length_setLink hs').2 fun b => ?_
  rw [cell_setLink hs' b, Option.map_eq_none_iff]

theorem Gone.alloc (h : s.Gone) (d : Cell α) : (s.alloc d).2.Gone := by
  refine ⟨h.nodup, fun b => ?_⟩
  show b ∈ s.freed ↔ b < (s.cells ++ [some d]).length ∧ _
  rw [cell_alloc, List.length_append, List.length_singleton, h.mem b]
  by_cases hb : b = s.cells.length
  · simp [hb]
  · rw [if_neg hb]
    exact and_congr_left fun _ => by omega

theorem Gone.free (h : s.Gone) (hs' : s.free a = some s') : s'.Gone := by
  obtain ⟨c, hc, rfl⟩ := Option.map_eq_some_iff.mp hs'
  have hlive : a ∉ s.freed := fun hmem => by
    rw [((h.mem a).mp hmem).2] at hc
    cases hc
  refine ⟨List.nodup_append.mpr ⟨h.nodup, List.nodup_singleton a, ?_⟩, fun b => ?_⟩
  · intro b hb d hd heq
    rw [heq, List.mem_singleton.mp hd] at hb
    exact hlive hb
  · show b ∈ s.freed ++ [a] ↔ b < (s.cells.set a none).length ∧ (s.setCell a none).cell b = none
    rw [List.mem_append, List.mem_singleton, cell_setCell (cell_lt hc), List.length_set, h.mem b]
    by_cases hb : b = a
    · rw [hb, if_pos rfl]
      exact iff_of_true (.inr rfl) ⟨cell_lt hc, rfl⟩
    · rw [if_neg hb]
      exact ⟨fun hor => hor.resolve_right hb, .inl⟩

theorem cell_free (hs' : s.free a = some s') (b : ℕ) :
    s'.cell b = if b = a then none else s.cell b := by
  obtain ⟨c, hc, rfl⟩ := Option.map_eq_some_iff.mp hs'
  exact cell_setCell (cell_lt hc) none b

theorem heads_free (hs' : s.free a = some s') : s'.heads = s.heads := by
  obtain ⟨c, _, rfl⟩ := Option.map_eq_some_iff.mp hs'
  rfl

end Operations

section Links

theorem count_set_add {l : List (Option ℕ)} {i : ℕ} {x : Option ℕ} (h : l[i]? = some x)
    (y b : Option ℕ) :
    (l.set i y).count b + (if x = b then 1 else 0) = l.count b + if y = b then 1 else 0 := by
  induction l generalizing i with
  | nil => cases h
  | cons z rest ih =>
    cases i with
    | zero =>
      cases h
      rw [List.set_cons_zero, List.count_cons, List.count_cons]
      simp only [beq_iff_eq]
      omega
    | succ i =>
      have hrest := ih (i := i) h
      rw [List.set_cons_succ, List.count_cons, List.count_cons]
      omega

theorem cells_getElem? (h : s.cell a = some c) : s.cells[a]? = some (some c) := by
  unfold cell at h
  cases ha : s.cells[a]? with
  | none => rw [ha] at h; cases h
  | some d => rw [ha] at h; exact congrArg some h

theorem links_setCell (h : s.cell a = some c) (d : Option (Cell α)) (b : ℕ) :
    (s.setCell a d).links b + (if c.next = some b then 1 else 0) =
      s.links b + if d.bind Cell.next = some b then 1 else 0 := by
  have hnext : (s.cells.map fun c => c.bind Cell.next)[a]? = some c.next := by
    rw [List.getElem?_map, cells_getElem? h]
    rfl
  have hcount := count_set_add hnext (d.bind Cell.next) (some b)
  simp only [links, setCell, List.map_set]
  omega

theorem links_setLink (h : s.target link = some p) (h' : s.setLink link q = some s') (b : ℕ) :
    s'.links b + (if p = some b then 1 else 0) = s.links b + if q = some b then 1 else 0 := by
  cases link with
  | head i =>
    rw [setLink] at h'
    split_ifs at h'
    cases h'
    have hcount := count_set_add h q (some b)
    simp only [links]
    omega
  | next a =>
    obtain ⟨c, hc, hs'⟩ := Option.map_eq_some_iff.mp h'
    rw [target, hc, Option.map_some, Option.some.injEq] at h
    rw [← hs', ← h]
    exact links_setCell hc (some { c with next := q }) b

theorem links_alloc (d : Cell α) (b : ℕ) :
    (s.alloc d).2.links b = s.links b + if d.next = some b then 1 else 0 := by
  simp only [links, alloc, List.map_append, List.count_append, List.map_cons, List.map_nil,
    Option.bind_some, List.count_singleton, beq_iff_eq]
  omega

theorem links_pos (h : s.target link = some (some a)) : 0 < s.links a := by
  obtain ⟨t, ht⟩ := exists_setLink h none
  have hlinks := links_setLink h ht a
  simp only [if_true, reduceCtorEq, if_false] at hlinks
  omega

theorem two_le_links {link' : Link} (h : s.target link = some (some a))
    (h' : s.target link' = some (some a)) (hne : link ≠ link') : 2 ≤ s.links a := by
  obtain ⟨t, ht⟩ := exists_setLink h none
  have hlinks := links_setLink h ht a
  have hother : t.target link' = some (some a) := by
    cases link' with
    | head j =>
      rw [target, (heads_setLink ht).2 j, if_neg hne]
      exact h'
    | next b =>
      rw [target] at h' ⊢
      rw [cell_setLink ht b]
      simpa only [if_neg hne, Option.map_id_fun', id] using h'
  have hpos := links_pos hother
  simp only [if_true, reduceCtorEq, if_false] at hlinks
  omega

end Links

section Counts
variable {w : ℕ → ℤ}

theorem Counts.congr {w' : ℕ → ℤ} (h : s.Counts w) (hw : ∀ b, w' b = w b) : s.Counts w' :=
  fun b => by rw [h b, hw b]

theorem countOf_setCell (h : s.cell a = some c) (d : Option (Cell α)) (b : ℕ) :
    (s.setCell a d).countOf b = if b = a then d.elim 0 Cell.count else s.countOf b := by
  rw [countOf, cell_setCell (cell_lt h)]
  split_ifs <;> rfl

theorem Counts.incCount (h : s.Counts w) (hs' : s.incCount a = some s') :
    s'.Counts fun b => w b + if b = a then 1 else 0 := by
  obtain ⟨c, hc, rfl⟩ := Option.map_eq_some_iff.mp hs'
  intro b
  have hlinks := links_setCell hc (some { c with count := c.count + 1 }) b
  have hcount := h b
  rw [countOf_setCell hc]
  simp only [Option.bind_some, Option.elim_some] at hlinks ⊢
  by_cases hb : b = a
  · rw [hb, countOf, hc, Option.elim_some] at hcount
    rw [hb] at hlinks ⊢
    simp only [if_true]
    omega
  · simp only [if_neg hb]
    omega

theorem Counts.decCount (h : s.Counts w) (hs' : s.decCount a = some s') :
    s'.Counts fun b => w b - if b = a then 1 else 0 := by
  obtain ⟨c, hc, hs'⟩ := Option.bind_eq_some_iff.mp hs'
  split_ifs at hs' with hzero
  cases hs'
  intro b
  have hlinks := links_setCell hc (some { c with count := c.count - 1 }) b
  have hcount := h b
  rw [countOf_setCell hc]
  simp only [Option.bind_some, Option.elim_some] at hlinks ⊢
  by_cases hb : b = a
  · rw [hb, countOf, hc, Option.elim_some] at hcount
    rw [hb] at hlinks ⊢
    simp only [if_true]
    omega
  · simp only [if_neg hb]
    omega

theorem Counts.setLink (h : s.Counts w) (hp : s.target link = some p)
    (hs' : s.setLink link q = some s') :
    s'.Counts fun b => w b + (if p = some b then 1 else 0) - if q = some b then 1 else 0 := by
  intro b
  have hlinks := links_setLink hp hs' b
  have hcount := h b
  have hsame : s'.countOf b = s.countOf b := by
    rw [countOf, cell_setLink hs' b, countOf]
    cases s.cell b with
    | none => rfl
    | some c =>
      rw [Option.map_some, Option.elim_some, Option.elim_some]
      split_ifs <;> rfl
  rw [hsame]
  dsimp only
  split_ifs at hlinks ⊢ <;> omega

theorem Counts.alloc (h : s.Counts w) (d : Cell α) :
    (s.alloc d).2.Counts fun b =>
      w b - (if d.next = some b then 1 else 0) + if b = s.cells.length then d.count else 0 := by
  intro b
  have hlinks := links_alloc (s := s) d b
  have hcount := h b
  rw [hlinks, countOf, cell_alloc]
  by_cases hb : b = s.cells.length
  · have hfresh : s.countOf b = 0 := by
      rw [hb, countOf, cell, List.getElem?_eq_none (Nat.le_refl _)]
      rfl
    simp only [if_pos hb, Option.elim_some]
    split_ifs <;> omega
  · rw [countOf] at hcount
    simp only [if_neg hb]
    split_ifs <;> omega

theorem Counts.free (h : s.Counts w) (hc : s.cell a = some c) (hs' : s.free a = some s') :
    s'.Counts fun b =>
      w b - (if b = a then c.count else 0) + if c.next = some b then 1 else 0 := by
  rw [free_of hc] at hs'
  cases hs'
  intro b
  have hlinks := links_setCell hc none b
  have hcount := h b
  show ((s.setCell a none).countOf b : ℤ) = (s.setCell a none).links b + _
  rw [countOf_setCell hc]
  simp only [Option.bind_none, Option.elim_none, reduceCtorEq, if_false] at hlinks ⊢
  by_cases hb : b = a
  · rw [hb, countOf, hc, Option.elim_some] at hcount
    rw [hb] at hlinks ⊢
    simp only [if_true]
    split_ifs at hlinks ⊢ <;> omega
  · simp only [if_neg hb]
    split_ifs at hlinks ⊢ <;> omega

theorem Counts.setCell (h : s.Counts w) (hc : s.cell a = some c) (hnext : c'.next = c.next)
    (hcount : c'.count = c.count) : (s.setCell a (some c')).Counts w := by
  intro b
  have hlinks := links_setCell hc (some c') b
  have hold := h b
  rw [countOf_setCell hc]
  simp only [Option.bind_some, Option.elim_some, hnext, hcount] at hlinks ⊢
  by_cases hb : b = a
  · rw [hb, countOf, hc, Option.elim_some] at hold
    rw [hb] at hlinks
    rw [if_pos hb, hb]
    omega
  · rw [if_neg hb]
    omega

theorem Counts.push (h : s.Counts w) (p : Option ℕ) :
    ({ s with heads := s.heads ++ [p] } : SharedChains α).Counts fun b =>
      w b - if p = some b then 1 else 0 := by
  intro b
  have hcount := h b
  have hsame : ({ s with heads := s.heads ++ [p] } : SharedChains α).countOf b = s.countOf b := rfl
  rw [hsame, hcount]
  simp only [links, List.count_append, List.count_singleton, beq_iff_eq]
  split_ifs <;> omega

end Counts

section Paths

theorem values_append (s : SharedChains α) (l l' : List ℕ) :
    s.values (l ++ l') = s.values l ++ s.values l' :=
  List.filterMap_append

theorem values_cons (h : s.cell a = some c) (l : List ℕ) :
    s.values (a :: l) = c.value :: s.values l := by
  rw [values, List.filterMap_cons, h]
  rfl

theorem values_congr (h : ∀ a ∈ l, (s'.cell a).map Cell.value = (s.cell a).map Cell.value) :
    s'.values l = s.values l :=
  List.filterMap_congr h

theorem Path.unique {l' : List ℕ} (h : s.Path p l) (h' : s.Path p l') : l = l' := by
  induction h generalizing l' with
  | nil =>
    cases h'
    rfl
  | cons hc _ ih =>
    cases h' with
    | cons hc' hrest' =>
      rw [hc] at hc'
      cases hc'
      rw [ih hrest']

theorem Path.of_append {l' : List ℕ} (h : s.Path p (l ++ a :: l')) :
    s.Path (some a) (a :: l') := by
  induction l generalizing p with
  | nil =>
    cases h with
    | cons hc hrest => exact .cons hc hrest
  | cons b l ih =>
    cases h with
    | cons _ hrest => exact ih hrest

theorem Path.exists_cell (h : s.Path p l) (ha : a ∈ l) : ∃ c, s.cell a = some c := by
  induction h with
  | nil => cases ha
  | cons hc _ ih =>
    cases List.mem_cons.mp ha with
    | inl heq => exact ⟨_, heq ▸ hc⟩
    | inr hrest => exact ih hrest

theorem Path.nodup (h : s.Path p l) : l.Nodup := by
  induction h with
  | nil => exact List.nodup_nil
  | cons hc hrest ih =>
    refine List.nodup_cons.mpr ⟨fun hmem => ?_, ih⟩
    obtain ⟨l₁, l₂, rfl⟩ := List.append_of_mem hmem
    have hlength := congrArg List.length ((Path.cons hc hrest).unique hrest.of_append)
    simp only [List.length_cons, List.length_append] at hlength
    omega

theorem Path.length_le (h : s.Path p l) : l.length ≤ s.cells.length := by
  have hsub : l ⊆ List.range s.cells.length := by
    intro a ha
    obtain ⟨c, hc⟩ := h.exists_cell ha
    exact List.mem_range.mpr (cell_lt hc)
  have hle := (List.Nodup.subperm h.nodup hsub).length_le
  rwa [List.length_range] at hle

theorem Path.frame (s' : SharedChains α) (h : s.Path p l)
    (hcells : ∀ a ∈ l, ∀ c, s.cell a = some c →
      ∃ c', s'.cell a = some c' ∧ c'.next = c.next ∧ c'.value = c.value) :
    s'.Path p l ∧ s'.values l = s.values l := by
  induction h with
  | nil => exact ⟨.nil, rfl⟩
  | @cons a c l hc hrest ih =>
    obtain ⟨c', hc', hnext, hvalue⟩ := hcells a List.mem_cons_self c hc
    obtain ⟨hpath, hvalues⟩ := ih fun b hb => hcells b (List.mem_cons_of_mem a hb)
    refine ⟨.cons hc' (hnext ▸ hpath), ?_⟩
    unfold values at hvalues ⊢
    rw [List.filterMap_cons, List.filterMap_cons, hc, hc', Option.map_some, Option.map_some,
      hvalues, hvalue]

theorem Path.exists_link {j : ℕ} (hj : s.heads[j]? = some p) (h : s.Path p l) (ha : a ∈ l) :
    s.target (.head j) = some (some a) ∨ ∃ b ∈ l, s.target (.next b) = some (some a) := by
  have hgen : p = some a ∨ ∃ b ∈ l, s.target (.next b) = some (some a) := by
    clear hj
    induction h with
    | nil => cases ha
    | @cons b c l hc hrest ih =>
      cases List.mem_cons.mp ha with
      | inl heq => exact .inl (congrArg some heq.symm)
      | inr hmem =>
        right
        cases ih hmem with
        | inl hnext => exact ⟨b, List.mem_cons_self, by rw [target, hc, Option.map_some, hnext]⟩
        | inr hlink =>
          obtain ⟨d, hd, htarget⟩ := hlink
          exact ⟨d, List.mem_cons_of_mem b hd, htarget⟩
  cases hgen with
  | inl hp => exact .inl (by rw [target, hj, hp])
  | inr hlink => exact .inr hlink

end Paths

section Fronts

theorem Front.target (h : s.Front i pre link q) : s.target link = some q := by
  cases h with
  | head hp => exact hp
  | next _ hc _ => rw [SharedChains.target, hc, Option.map_some]

theorem Front.exists_head (h : s.Front i pre link q) : ∃ p, s.heads[i]? = some p := by
  induction h with
  | head hp => exact ⟨_, hp⟩
  | next _ _ _ ih => exact ih

theorem Front.link_eq (h : s.Front i pre link q) :
    (pre = [] ∧ link = .head i) ∨ ∃ b ∈ pre, link = .next b := by
  cases h with
  | head => exact .inl ⟨rfl, rfl⟩
  | next => exact .inr ⟨_, List.mem_append_right _ List.mem_cons_self, rfl⟩

theorem Front.link_ne_head (h : s.Front i pre link q) {j : ℕ} (hj : j ≠ i) : link ≠ .head j := by
  cases h with
  | head => exact fun heq => hj (Link.head.inj heq).symm
  | next => exact nofun

theorem Front.link_ne_next (h : s.Front i pre link q) (ha : a ∉ pre) : link ≠ .next a := by
  cases h with
  | head => exact nofun
  | next =>
    intro heq
    rw [Link.next.inj heq] at ha
    exact ha (List.mem_append_right _ List.mem_cons_self)

theorem Front.cell (h : s.Front i pre link q) (ha : a ∈ pre) :
    ∃ c, s.cell a = some c ∧ c.count = 1 := by
  induction h with
  | head => cases ha
  | next _ hc hcount ih =>
    cases List.mem_append.mp ha with
    | inl hmem => exact ih hmem
    | inr hmem => exact ⟨_, List.mem_singleton.mp hmem ▸ hc, hcount⟩

theorem Front.exists_rest (h : s.Front i pre link q) (hp : s.heads[i]? = some p)
    (hl : s.Path p l) : ∃ rest, l = pre ++ rest ∧ s.Path q rest := by
  induction h with
  | head hp' =>
    rw [hp] at hp'
    cases hp'
    exact ⟨l, rfl, hl⟩
  | next _ hc _ ih =>
    obtain ⟨rest, hrest, hpath⟩ := ih
    cases hpath with
    | cons hc' hpath =>
      rw [hc] at hc'
      cases hc'
      exact ⟨_, by rw [hrest, List.append_assoc, List.singleton_append], hpath⟩

theorem Front.path (h : s.Front i pre link q) (hl : s.Path q l) :
    ∃ p, s.heads[i]? = some p ∧ s.Path p (pre ++ l) := by
  induction h generalizing l with
  | head hp => exact ⟨_, hp, hl⟩
  | next _ hc _ ih =>
    obtain ⟨p, hp, hpath⟩ := ih (.cons hc hl)
    rw [List.append_assoc, List.singleton_append]
    exact ⟨p, hp, hpath⟩

theorem Front.not_mem (h : s.Front i pre link q) (hcounts : s.Counts fun _ => 0) {j : ℕ}
    (hne : j ≠ i) (hj : s.heads[j]? = some p) (hl : s.Path p l) (ha : a ∈ pre) : a ∉ l := by
  induction h generalizing a with
  | head => cases ha
  | @next pre link b c hfront hc hcount ih =>
    cases List.mem_append.mp ha with
    | inl hmem => exact ih hmem
    | inr hmem =>
      obtain rfl := List.mem_singleton.mp hmem
      intro hal
      have hone : s.links a = 1 := by
        have hlinks : (s.countOf a : ℤ) = s.links a + 0 := hcounts a
        rw [countOf, hc, Option.elim_some] at hlinks
        omega
      have htwo : ∀ link', link ≠ link' → s.target link' ≠ some (some a) := by
        intro link' hlink htarget
        have := two_le_links hfront.target htarget hlink
        omega
      cases Path.exists_link hj hl hal with
      | inl hhead =>
        refine htwo _ ?_ hhead
        cases hfront.link_eq with
        | inl hstart =>
          rw [hstart.2]
          exact fun heq => hne (Link.head.inj heq).symm
        | inr hlast =>
          obtain ⟨d, _, hd⟩ := hlast
          rw [hd]
          exact nofun
      | inr hnext =>
        obtain ⟨d, hd, htarget⟩ := hnext
        refine htwo _ ?_ htarget
        cases hfront.link_eq with
        | inl hstart =>
          rw [hstart.2]
          exact nofun
        | inr hlast =>
          obtain ⟨e, he, hlink⟩ := hlast
          rw [hlink]
          exact fun heq => ih he (Link.next.inj heq ▸ hd)

theorem Front.frame (h : s.Front i pre link q) (hhead : s'.heads[i]? = s.heads[i]?)
    (hcells : ∀ a ∈ pre, ∀ c, s.cell a = some c →
      ∃ c', s'.cell a = some c' ∧ c'.next = c.next ∧ c'.count = c.count) :
    s'.Front i pre link q := by
  induction h with
  | head hp => exact .head (hhead.trans hp)
  | @next pre link b c _ hc hcount ih =>
    obtain ⟨c', hc', hnext, hcount'⟩ :=
      hcells b (List.mem_append_right pre List.mem_cons_self) c hc
    rw [← hnext]
    exact .next (ih fun a ha => hcells a (List.mem_append_left _ ha)) hc' (hcount'.trans hcount)

theorem Front.redirect {q' : Option ℕ} (h : s.Front i pre link q) (hnodup : pre.Nodup)
    (hhead : link ≠ .head i → s'.heads[i]? = s.heads[i]?)
    (hcells : ∀ a ∈ pre, ∀ c, s.cell a = some c →
      ∃ c', s'.cell a = some c' ∧ (link ≠ .next a → c'.next = c.next) ∧ c'.count = c.count)
    (htarget : s'.target link = some q') : s'.Front i pre link q' := by
  cases h with
  | head => exact .head htarget
  | @next pre _ b c hfront hc hcount =>
    obtain ⟨c', hc', _, hcount'⟩ := hcells b (List.mem_append_right pre List.mem_cons_self) c hc
    rw [SharedChains.target, hc', Option.map_some, Option.some.injEq] at htarget
    rw [← htarget]
    refine .next (hfront.frame (hhead nofun) fun a ha d hd => ?_) hc' (hcount'.trans hcount)
    obtain ⟨d', hd', hnext, hcount⟩ := hcells a (List.mem_append_left _ ha) d hd
    refine ⟨d', hd', hnext fun heq => ?_, hcount⟩
    rw [Link.next.inj heq] at hnodup
    exact List.disjoint_of_nodup_append hnodup ha List.mem_cons_self

/-- The last link of the front leads to a path that is there, behind cells that are kept. -/
theorem Front.rejoin (s' : SharedChains α) {q' : Option ℕ} {post : List ℕ}
    (h : s.Front i pre link q)
    (hpost : s.Path q' post) (hnodup : (pre ++ post).Nodup)
    (hhead : s'.heads[i]? = if link = .head i then some q' else s.heads[i]?)
    (hcells : ∀ a ∈ pre ++ post, ∀ c, s.cell a = some c → ∃ c', s'.cell a = some c' ∧
      c'.next = (if link = .next a then q' else c.next) ∧ (a ∈ pre → c'.count = c.count) ∧
      c'.value = c.value) :
    s'.Front i pre link q' ∧ s'.Path q' post ∧
      s'.values (pre ++ post) = s.values (pre ++ post) := by
  have htarget : s'.target link = some q' := by
    cases h with
    | head => rw [SharedChains.target, hhead, if_pos rfl]
    | @next pre _ b c _ hc =>
      obtain ⟨c', hc', hnext, _⟩ := hcells b
        (List.mem_append_left post (List.mem_append_right pre List.mem_cons_self)) c hc
      rw [SharedChains.target, hc', Option.map_some, hnext, if_pos rfl]
  refine ⟨h.redirect hnodup.of_append_left (fun hne => by rw [hhead, if_neg hne])
    (fun a ha c hc => ?_) htarget, ?_, ?_⟩
  · obtain ⟨c', hc', hnext, hcount, _⟩ := hcells a (List.mem_append_left post ha) c hc
    exact ⟨c', hc', fun hne => by rw [hnext, if_neg hne], hcount ha⟩
  · refine (hpost.frame s' fun a ha c hc => ?_).1
    obtain ⟨c', hc', hnext, _, hvalue⟩ := hcells a (List.mem_append_right pre ha) c hc
    have hlink := h.link_ne_next fun hpre => List.disjoint_of_nodup_append hnodup hpre ha
    exact ⟨c', hc', by rw [hnext, if_neg hlink], hvalue⟩
  · refine values_congr fun a ha => ?_
    have hlive : ∃ c, s.cell a = some c := by
      cases List.mem_append.mp ha with
      | inl hpre =>
        obtain ⟨c, hc, _⟩ := h.cell hpre
        exact ⟨c, hc⟩
      | inr hmem => exact hpost.exists_cell hmem
    obtain ⟨c, hc⟩ := hlive
    obtain ⟨c', hc', _, _, hvalue⟩ := hcells a ha c hc
    rw [hc, hc', Option.map_some, Option.map_some, hvalue]

end Fronts

/-- The counts are the numbers of links, a cell lives while it has one, and every chain ends. -/
structure Sound (s : SharedChains α) : Prop where
  counts : s.Counts fun _ => 0
  live : ∀ a c, s.cell a = some c → 0 < c.count
  path : ∀ (i : ℕ) (p : Option ℕ), s.heads[i]? = some p → ∃ l, s.Path p l
  gone : s.Gone

theorem Front.exists_post (h : s.Front i pre link (some a)) (hs : s.Sound)
    (hc : s.cell a = some c) : ∃ post, s.Path c.next post ∧ (pre ++ a :: post).Nodup := by
  obtain ⟨p, hp⟩ := h.exists_head
  obtain ⟨l, hl⟩ := hs.path i p hp
  obtain ⟨rest, hrest, hpath⟩ := h.exists_rest hp hl
  cases hpath with
  | @cons _ c' post hc' hpost =>
    rw [hc] at hc'
    cases hc'
    exact ⟨post, hpost, hrest ▸ hl.nodup⟩

theorem Front.nodup {post : List ℕ} (h : s.Front i pre link (some a)) (hs : s.Sound)
    (hc : s.cell a = some c) (hpost : s.Path c.next post) :
    a ∉ pre ∧ a ∉ post ∧ (pre ++ post).Nodup := by
  obtain ⟨post', hpost', hnodup⟩ := h.exists_post hs hc
  rw [hpost'.unique hpost] at hnodup
  have hmid := List.nodup_middle.mp hnodup
  rw [List.nodup_cons, List.mem_append, not_or] at hmid
  exact ⟨hmid.1.1, hmid.1.2, hmid.2⟩

def Shows (s : SharedChains α) (i : ℕ) (vs : List α) : Prop :=
  ∃ p l, s.heads[i]? = some p ∧ s.Path p l ∧ s.values l = vs

/-- Nobody else sees what an operation of the owner `i` did. -/
structure Keeps (s s' : SharedChains α) (i : ℕ) : Prop where
  length : s'.heads.length = s.heads.length
  head : ∀ j : ℕ, j ≠ i → s'.heads[j]? = s.heads[j]?
  path : ∀ (j : ℕ) p l, j ≠ i → s.heads[j]? = some p → s.Path p l →
    s'.Path p l ∧ s'.values l = s.values l

theorem Keeps.refl (s : SharedChains α) (i : ℕ) : s.Keeps s i :=
  ⟨rfl, fun _ _ => rfl, fun _ _ _ _ _ hl => ⟨hl, rfl⟩⟩

theorem Keeps.trans {s'' : SharedChains α} (h : s.Keeps s' i) (h' : s'.Keeps s'' i) :
    s.Keeps s'' i := by
  refine ⟨h'.length.trans h.length, fun j hj => (h'.head j hj).trans (h.head j hj), ?_⟩
  intro j p l hj hp hl
  obtain ⟨hpath, hvalues⟩ := h.path j p l hj hp hl
  obtain ⟨hpath', hvalues'⟩ := h'.path j p l hj ((h.head j hj).trans hp) hpath
  exact ⟨hpath', hvalues'.trans hvalues⟩

theorem Keeps.shows {j : ℕ} {vs : List α} (h : s.Keeps s' i) (hj : j ≠ i) (hvs : s.Shows j vs) :
    s'.Shows j vs := by
  obtain ⟨p, l, hp, hl, rfl⟩ := hvs
  obtain ⟨hpath, hvalues⟩ := h.path j p l hj hp hl
  exact ⟨p, l, (h.head j hj).trans hp, hpath, hvalues⟩

theorem Keeps.of_front (hs : s.Sound) (hfront : s.Front i pre link q)
    (hlength : s'.heads.length = s.heads.length)
    (hhead : ∀ j : ℕ, j ≠ i → s'.heads[j]? = s.heads[j]?)
    (hcells : ∀ (j : ℕ) p l, j ≠ i → s.heads[j]? = some p → s.Path p l → ∀ a ∈ l, a ∉ pre → ∀ c,
      s.cell a = some c → ∃ c', s'.cell a = some c' ∧ c'.next = c.next ∧ c'.value = c.value) :
    s.Keeps s' i := by
  refine ⟨hlength, hhead, fun j p l hj hp hl =>
    hl.frame s' fun a ha c hc => ?_⟩
  exact hcells j p l hj hp hl a ha
    (fun hpre => hfront.not_mem hs.counts hj hp hl hpre ha) c hc

theorem Keeps.paths (hs : s.Sound) (h : s.Keeps s' i) {vs : List α} (hi : s'.Shows i vs)
    (j : ℕ) (p : Option ℕ) (hp : s'.heads[j]? = some p) : ∃ l, s'.Path p l := by
  by_cases hj : j = i
  · obtain ⟨p', l, hp', hl, _⟩ := hi
    rw [hj, hp'] at hp
    cases hp
    exact ⟨l, hl⟩
  · have hold := (h.head j hj).symm.trans hp
    obtain ⟨l, hl⟩ := hs.path j p hold
    exact ⟨l, (h.path j p l hj hold hl).1⟩

end SharedChains
end NetGymSim.Lib

import Jitq.Lib.Partial
import Mathlib.Data.List.Basic
import Mathlib.Data.List.Perm.Basic
import Mathlib.Data.List.Dedup
import Mathlib.Order.Lattice

namespace SortedMap

open List

/-! # Maps and multimaps as sorted lists

The entries of a container in the order of its iteration.

* `MultiMap` — entries sorted by key, equal keys in the order of their insertion;
* `Map` — at most one entry per key;
* `entries_foldl_emplace`, `entries_foldl_assign` — inserting sorted entries one after the other into an
  empty container. -/

variable {κ α : Type} [LinearOrder κ]

/-! ### Multimaps -/

/-- Inserts behind the entries with the same or a smaller key. -/
def emplaceList (k : κ) (a : α) : List (κ × α) → List (κ × α)
  | [] => [(k, a)]
  | e :: es => if k < e.1 then (k, a) :: e :: es else e :: emplaceList k a es

theorem emplaceList_perm (k : κ) (a : α) (es : List (κ × α)) : (emplaceList k a es).Perm ((k, a) :: es) := by
  induction es with
  | nil => exact List.Perm.refl _
  | cons e es ih =>
    unfold emplaceList
    split
    · exact List.Perm.refl _
    · exact (ih.cons e).trans (List.Perm.swap _ _ _)

variable {es : List (κ × α)} {k : κ} {a : α}

theorem emplaceList_sorted (k : κ) (a : α) (h : es.Pairwise fun x y => x.1 ≤ y.1) :
    (emplaceList k a es).Pairwise fun x y => x.1 ≤ y.1 := by
  induction es with
  | nil => exact pairwise_singleton _ _
  | cons e es ih =>
    obtain ⟨hhead, htail⟩ := pairwise_cons.mp h
    unfold emplaceList
    split
    · next hlt =>
      refine pairwise_cons.mpr ⟨fun x hx => ?_, h⟩
      rcases mem_cons.mp hx with rfl | hx
      · exact hlt.le
      · exact hlt.le.trans (hhead x hx)
    · next hge =>
      refine pairwise_cons.mpr ⟨fun x hx => ?_, ih htail⟩
      rcases mem_cons.mp ((emplaceList_perm k a es).mem_iff.mp hx) with rfl | hx
      · exact not_lt.mp hge
      · exact hhead x hx

/-- An entry that is behind all others goes to the end. -/
theorem emplaceList_of_le (h : ∀ e ∈ es, e.1 ≤ k) : emplaceList k a es = es ++ [(k, a)] := by
  induction es with
  | nil => rfl
  | cons e es ih =>
    rw [emplaceList, if_neg (not_lt.mpr (h e mem_cons_self)), ih fun x hx => h x (mem_cons_of_mem e hx), cons_append]

/-- `std::multimap`. -/
structure MultiMap (κ α : Type) [LinearOrder κ] where
  entries : List (κ × α)
  sorted : entries.Pairwise fun x y => x.1 ≤ y.1

variable {es : List (κ × α)} {e : κ × α}

namespace MultiMap

@[ext] theorem ext {m m' : MultiMap κ α} (h : m.entries = m'.entries) : m = m' := by
  cases m
  congr

instance : EmptyCollection (MultiMap κ α) := ⟨⟨[], List.Pairwise.nil⟩⟩

@[simp] theorem entries_empty : (∅ : MultiMap κ α).entries = [] := rfl

variable (m : MultiMap κ α)

def emplace (k : κ) (a : α) : MultiMap κ α :=
  ⟨emplaceList k a m.entries, emplaceList_sorted k a m.sorted⟩

/-- Removes the entries of a key. -/
def erase (k : κ) : MultiMap κ α := ⟨m.entries.filter fun e => e.1 ≠ k, m.sorted.filter _⟩

/-- The values of a key. -/
def equalRange (k : κ) : List α := (m.entries.filter fun e => e.1 = k).map Prod.snd

/-- The keys, each once. -/
def keys : List κ := (m.entries.map Prod.fst).dedup

section

variable {m : MultiMap κ α} {k : κ}

theorem mem_emplace {a : α} : e ∈ (m.emplace k a).entries ↔ e = (k, a) ∨ e ∈ m.entries :=
  (emplaceList_perm k a m.entries).mem_iff.trans mem_cons

theorem mem_erase : e ∈ (m.erase k).entries ↔ e ∈ m.entries ∧ e.1 ≠ k := by
  simp [erase]

theorem mem_equalRange {a : α} : a ∈ m.equalRange k ↔ (k, a) ∈ m.entries := by
  simp [equalRange]

/-- The only value of a key. -/
theorem equalRange_eq_singleton {a : α} (hnd : (m.entries.map Prod.fst).Nodup)
    (h : (k, a) ∈ m.entries) : m.equalRange k = [a] := by
  obtain ⟨before, after, hsplit⟩ := append_of_mem h
  have hothers : ∀ e ∈ before ++ after, ¬ e.1 = k := by
    rw [hsplit, map_append, map_cons] at hnd
    have hnot := (nodup_middle.mp hnd).notMem
    intro e he heq
    apply hnot
    rw [← map_append]
    exact mem_map.mpr ⟨e, he, heq⟩
  have hnil (l : List (κ × α)) (hl : l ⊆ before ++ after) : l.filter (fun e => decide (e.1 = k)) = [] :=
    filter_eq_nil_iff.mpr fun e he heq => hothers e (hl he) (of_decide_eq_true heq)
  unfold equalRange
  rw [hsplit, filter_append, filter_cons_of_pos (by simp), hnil before (subset_append_left _ _),
    hnil after (subset_append_right _ _)]
  rfl

theorem mem_keys : k ∈ m.keys ↔ ∃ a, (k, a) ∈ m.entries := by
  simp [keys]

end

theorem entries_foldl_emplace_append (h : (m.entries ++ es).Pairwise fun x y => x.1 ≤ y.1) :
    (es.foldl (fun m e => m.emplace e.1 e.2) m).entries = m.entries ++ es := by
  induction es generalizing m with
  | nil => simp
  | cons e es ih =>
    have hemplace : (m.emplace e.1 e.2).entries = m.entries ++ [e] :=
      emplaceList_of_le fun x hx => (pairwise_append.mp h).2.2 x hx e mem_cons_self
    have hrest : ((m.emplace e.1 e.2).entries ++ es).Pairwise fun x y => x.1 ≤ y.1 := by
      rwa [hemplace, append_assoc, singleton_append]
    rw [foldl_cons, ih _ hrest, hemplace, append_assoc, singleton_append]

/-- A multimap is built by emplacing its entries in order. -/
theorem entries_foldl_emplace (h : es.Pairwise fun x y => x.1 ≤ y.1) :
    (es.foldl (fun m e => m.emplace e.1 e.2) (∅ : MultiMap κ α)).entries = es := by
  rw [entries_foldl_emplace_append ∅ (by simpa using h), entries_empty, nil_append]

end MultiMap

/-! ### Maps -/

/-- Inserts an entry or replaces the one with its key. -/
def assignList (k : κ) (a : α) : List (κ × α) → List (κ × α)
  | [] => [(k, a)]
  | e :: es =>
    if k < e.1 then (k, a) :: e :: es else if k = e.1 then (k, a) :: es else e :: assignList k a es

theorem mem_assignList (h : es.Pairwise fun x y => x.1 < y.1) :
    e ∈ assignList k a es ↔ e = (k, a) ∨ e ∈ es ∧ e.1 ≠ k := by
  induction es with
  | nil => simp [assignList]
  | cons x es ih =>
    obtain ⟨hhead, htail⟩ := pairwise_cons.mp h
    unfold assignList
    split
    · next hlt =>
      have hne : ∀ y ∈ x :: es, y.1 ≠ k := by
        intro y hy
        rcases mem_cons.mp hy with rfl | hy
        · exact hlt.ne'
        · exact (hlt.trans (hhead y hy)).ne'
      rw [mem_cons]
      exact or_congr_right ⟨fun hy => ⟨hy, hne e hy⟩, fun hy => hy.1⟩
    · split
      · next heq =>
        have hne : ∀ y ∈ es, y.1 ≠ k := fun y hy => heq ▸ (hhead y hy).ne'
        rw [mem_cons, mem_cons]
        refine or_congr_right ⟨fun hy => ⟨.inr hy, hne e hy⟩, fun hy => hy.1.resolve_left fun hx => ?_⟩
        exact hy.2 (hx ▸ heq.symm)
      · next hne =>
        rw [mem_cons, ih htail, mem_cons]
        constructor
        · rintro (rfl | rfl | ⟨hy, hk⟩)
          · exact .inr ⟨.inl rfl, Ne.symm hne⟩
          · exact .inl rfl
          · exact .inr ⟨.inr hy, hk⟩
        · rintro (rfl | ⟨rfl | hy, hk⟩)
          · exact .inr (.inl rfl)
          · exact .inl rfl
          · exact .inr (.inr ⟨hy, hk⟩)

theorem assignList_perm (h : k ∉ es.map Prod.fst) : (assignList k a es).Perm ((k, a) :: es) := by
  induction es with
  | nil => exact List.Perm.refl _
  | cons e es ih =>
    obtain ⟨hne, hrest⟩ := not_or.mp (fun hmem => h (mem_cons.mpr hmem))
    unfold assignList
    split
    · exact List.Perm.refl _
    · exact ((ih hrest).cons e).trans (List.Perm.swap _ _ _)

theorem assignList_sorted (k : κ) (a : α) (h : es.Pairwise fun x y => x.1 < y.1) :
    (assignList k a es).Pairwise fun x y => x.1 < y.1 := by
  induction es with
  | nil => exact pairwise_singleton _ _
  | cons e es ih =>
    obtain ⟨hhead, htail⟩ := pairwise_cons.mp h
    unfold assignList
    split
    · next hlt =>
      refine pairwise_cons.mpr ⟨fun x hx => ?_, h⟩
      rcases mem_cons.mp hx with rfl | hx
      · exact hlt
      · exact hlt.trans (hhead x hx)
    · next hge =>
      split
      · next heq => exact pairwise_cons.mpr ⟨fun x hx => heq ▸ hhead x hx, htail⟩
      · next hne =>
        refine pairwise_cons.mpr ⟨fun x hx => ?_, ih htail⟩
        rcases (mem_assignList htail).mp hx with rfl | ⟨hx, -⟩
        · exact lt_of_le_of_ne (not_lt.mp hge) (Ne.symm hne)
        · exact hhead x hx

/-- A key that is greater than all others goes to the end. -/
theorem assignList_of_lt (h : ∀ e ∈ es, e.1 < k) : assignList k a es = es ++ [(k, a)] := by
  induction es with
  | nil => rfl
  | cons e es ih =>
    have hlt := h e mem_cons_self
    rw [assignList, if_neg (not_lt.mpr hlt.le), if_neg hlt.ne',
      ih fun x hx => h x (mem_cons_of_mem e hx), cons_append]

/-- `std::map`. -/
structure Map (κ α : Type) [LinearOrder κ] where
  entries : List (κ × α)
  sorted : entries.Pairwise fun x y => x.1 < y.1

namespace Map

@[ext] theorem ext {m m' : Map κ α} (h : m.entries = m'.entries) : m = m' := by
  cases m
  congr

instance : EmptyCollection (Map κ α) := ⟨⟨[], List.Pairwise.nil⟩⟩

@[simp] theorem entries_empty : (∅ : Map κ α).entries = [] := rfl

variable (m : Map κ α)

/-- `m[k] = a`. -/
def assign (k : κ) (a : α) : Map κ α := ⟨assignList k a m.entries, assignList_sorted k a m.sorted⟩

/-- `m.emplace(k, a)`, which keeps the entry of a key that is there. -/
def emplace (k : κ) (a : α) : Map κ α := if k ∈ m.entries.map Prod.fst then m else m.assign k a

/-- `m.at(k)`. -/
def find (k : κ) : Option α := m.entries.lookup k

def keys : List κ := m.entries.map Prod.fst

theorem mem_assign {m : Map κ α} {k : κ} {a : α} :
    e ∈ (m.assign k a).entries ↔ e = (k, a) ∨ e ∈ m.entries ∧ e.1 ≠ k :=
  mem_assignList m.sorted

theorem find_eq_some_iff {m : Map κ α} {k : κ} {a : α} : m.find k = some a ↔ (k, a) ∈ m.entries := by
  obtain ⟨es, hes⟩ := m
  show es.lookup k = some a ↔ (k, a) ∈ es
  induction es with
  | nil => simp
  | cons e es ih =>
    obtain ⟨hhead, htail⟩ := pairwise_cons.mp hes
    obtain ⟨k', a'⟩ := e
    rw [lookup_cons, mem_cons]
    by_cases hk : k = k'
    · subst hk
      have hnot : (k, a) ∉ es := fun hmem => lt_irrefl k (hhead (k, a) hmem)
      simp [hnot, eq_comm]
    · have hne : (k == k') = false := beq_eq_false_iff_ne.mpr hk
      rw [hne, ih htail]
      simp [hk]

theorem mapM_find_keys : m.keys.mapM m.find = some (m.entries.map Prod.snd) := by
  unfold keys
  rw [Partial.mapM_eq_some_iff, forall₂_map_left_iff, forall₂_map_right_iff, forall₂_same]
  exact fun e he => find_eq_some_iff.mpr he

theorem entries_foldl_assign_append (h : (m.entries ++ es).Pairwise fun x y => x.1 < y.1) :
    (es.foldl (fun m e => m.assign e.1 e.2) m).entries = m.entries ++ es := by
  induction es generalizing m with
  | nil => simp
  | cons e es ih =>
    have hassign : (m.assign e.1 e.2).entries = m.entries ++ [e] :=
      assignList_of_lt fun x hx => (pairwise_append.mp h).2.2 x hx e mem_cons_self
    have hrest : ((m.assign e.1 e.2).entries ++ es).Pairwise fun x y => x.1 < y.1 := by
      rwa [hassign, append_assoc, singleton_append]
    rw [foldl_cons, ih _ hrest, hassign, append_assoc, singleton_append]

/-- Entries with distinct keys are all kept. -/
theorem entries_foldl_emplace_perm {m : Map κ α} (h : ((m.entries ++ es).map Prod.fst).Nodup) :
    (es.foldl (fun m e => m.emplace e.1 e.2) m).entries.Perm (m.entries ++ es) := by
  induction es generalizing m with
  | nil => simp
  | cons e es ih =>
    have hnew : e.1 ∉ m.entries.map Prod.fst := by
      intro hmem
      rw [map_append, map_cons] at h
      exact (nodup_append.mp h).2.2 _ hmem _ mem_cons_self rfl
    have hperm : (m.emplace e.1 e.2).entries.Perm (m.entries ++ [e]) := by
      rw [emplace, if_neg hnew]
      exact (assignList_perm hnew).trans (perm_append_singleton e m.entries).symm
    have hmove : ((m.emplace e.1 e.2).entries ++ es).Perm (m.entries ++ e :: es) := by
      refine (hperm.append_right es).trans ?_
      rw [append_assoc, singleton_append]
    exact (ih ((hmove.map Prod.fst).nodup_iff.mpr h)).trans hmove

/-- Each entry is kept or left out. -/
theorem entries_foldl_emplace_subperm (es : List (κ × α)) :
    (es.foldl (fun m e => m.emplace e.1 e.2) m).entries.Subperm (m.entries ++ es) := by
  induction es generalizing m with
  | nil => exact (List.Perm.of_eq (append_nil _).symm).subperm
  | cons e es ih =>
    have hone : (m.emplace e.1 e.2).entries.Subperm (m.entries ++ [e]) := by
      unfold emplace
      split
      · exact (sublist_append_left _ _).subperm
      · rename_i hnew
        exact ((assignList_perm hnew).trans (perm_append_singleton e m.entries).symm).subperm
    refine (ih (m.emplace e.1 e.2)).trans ((subperm_append_right es).mpr hone |>.trans ?_)
    rw [append_assoc, singleton_append]

/-- A map is built by assigning its entries in order. -/
theorem entries_foldl_assign (h : es.Pairwise fun x y => x.1 < y.1) :
    (es.foldl (fun m e => m.assign e.1 e.2) (∅ : Map κ α)).entries = es := by
  rw [entries_foldl_assign_append ∅ (by simpa using h), entries_empty, nil_append]

end Map

end SortedMap

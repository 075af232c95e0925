import Mathlib.Data.List.Sort
import Mathlib.Data.List.Basic

namespace SortBy

open List

/-! # Sorting by a key

Elements with different keys have one order only, so that sorting commutes with renaming.

* `sortBy` — sorts a list by a key;
* `eq_sortBy` — every sorted rearrangement is this one, if different elements have different keys;
* `sortBy_map` — sorting after a renaming that keeps the keys;
* `sortDescending` — the stable sort with the greatest keys first: `eq_sortDescending` says that it is determined
  by the order of the keys and the order of the elements with one key. -/

variable {α β κ : Type} [LinearOrder κ]

def sortBy (key : α → κ) (l : List α) : List α := l.insertionSort fun a b => key a ≤ key b

theorem sortBy_perm (key : α → κ) (l : List α) : (sortBy key l).Perm l := perm_insertionSort _ l

theorem sortBy_sorted (key : α → κ) (l : List α) : (sortBy key l).Pairwise fun a b => key a ≤ key b := by
  exact pairwise_insertionSort _ l

variable {key : α → κ} {l l' : List α}

@[simp] theorem mem_sortBy {a : α} : a ∈ sortBy key l ↔ a ∈ l := (sortBy_perm key l).mem_iff

@[simp] theorem length_sortBy (key : α → κ) (l : List α) : (sortBy key l).length = l.length :=
  (sortBy_perm key l).length_eq

/-- Different elements have different keys. -/
def Distinct (key : α → κ) (l : List α) : Prop := ∀ a ∈ l, ∀ b ∈ l, key a = key b → a = b

theorem eq_sortBy (hkey : Distinct key l) (hperm : l'.Perm l) (hsorted : l'.Pairwise fun a b => key a ≤ key b) :
    l' = sortBy key l := by
  refine (hperm.trans (sortBy_perm key l).symm).eq_of_pairwise ?_ hsorted (sortBy_sorted key l)
  intro a b ha hb hab hba
  exact hkey a (hperm.mem_iff.mp ha) b (mem_sortBy.mp hb) (le_antisymm hab hba)

/-- Only the elements matter, not their order. -/
theorem sortBy_congr (hkey : Distinct key l) (hperm : l'.Perm l) : sortBy key l' = sortBy key l :=
  eq_sortBy hkey ((sortBy_perm key l').trans hperm) (sortBy_sorted key l')

/-- A list that is sorted stays as it is. -/
theorem sortBy_of_sorted (hkey : Distinct key l) (hsorted : l.Pairwise fun a b => key a ≤ key b) : sortBy key l = l :=
  (eq_sortBy hkey (List.Perm.refl l) hsorted).symm

/-- Sorting commutes with a renaming that keeps the keys. -/
theorem map_sortBy {key' : β → κ} {f : α → β} (hf : ∀ a ∈ l, key' (f a) = key a) :
    sortBy key' (l.map f) = (sortBy key l).map f :=
  (map_insertionSort _ _ f l fun a ha b hb => by rw [hf a ha, hf b hb]).symm

theorem sortBy_map {key' : β → κ} {l' : List β} {f : α → β} (hkey : Distinct key l)
    (hperm : l'.Perm (l.map f)) (hf : ∀ a ∈ l, key' (f a) = key a) :
    sortBy key' l' = (sortBy key l).map f := by
  have hkey' : Distinct key' (l.map f) := by
    intro x hx y hy heq
    obtain ⟨a, ha, rfl⟩ := mem_map.mp hx
    obtain ⟨b, hb, rfl⟩ := mem_map.mp hy
    rw [hf a ha, hf b hb] at heq
    rw [hkey a ha b hb heq]
  rw [sortBy_congr hkey' hperm, map_sortBy hf]

/-! ### Stable sorting, the greatest keys first -/

/-- The greatest keys first; elements with one key keep their order. -/
def sortDescending (key : α → κ) (l : List α) : List α := l.mergeSort fun a b => key b ≤ key a

theorem sortDescending_perm (key : α → κ) (l : List α) : (sortDescending key l).Perm l := mergeSort_perm l _

@[simp] theorem length_sortDescending (key : α → κ) (l : List α) : (sortDescending key l).length = l.length :=
  (sortDescending_perm key l).length_eq

@[simp] theorem sortDescending_nil (key : α → κ) : sortDescending key [] = [] := (sortDescending_perm key []).eq_nil

theorem sortDescending_sorted (key : α → κ) (l : List α) :
    (sortDescending key l).Pairwise fun a b => key b ≤ key a := by
  exact pairwise_mergeSort' _ l

/-- The sort is stable. -/
theorem filter_sortDescending (key : α → κ) (l : List α) (c : κ) :
    ((sortDescending key l).filter fun a => key a = c) = l.filter fun a => key a = c := by
  have hkeys : (l.filter fun a => key a = c).Pairwise fun a b => decide (key b ≤ key a) = true := by
    apply pairwise_of_forall_mem_list
    intro a ha b hb
    have hac : key a = c := by simpa using (mem_filter.mp ha).2
    have hbc : key b = c := by simpa using (mem_filter.mp hb).2
    simp [hac, hbc]
  -- the elements with one key are sorted, so they are a part of the result in their own order
  have hsub : (l.filter fun a => key a = c).Sublist (sortDescending key l) := by
    refine sublist_mergeSort ?_ ?_ hkeys filter_sublist
    · intro a b d hab hbd
      simp only [decide_eq_true_eq] at hab hbd ⊢
      exact le_trans hbd hab
    · intro a b
      simpa using le_total (key b) (key a)
  have hfilt := hsub.filter fun a => decide (key a = c)
  rw [filter_filter] at hfilt
  simp only [Bool.and_self] at hfilt
  refine (hfilt.eq_of_length ?_).symm
  exact ((sortDescending_perm key l).filter _).length_eq.symm

/-- Two lists that are sorted by their keys and agree on the elements with each key are equal.  The induction takes
    both lists apart: the greater one of the two first keys would not occur in the other list. -/
theorem eq_of_filter_eq (hl : l.Pairwise fun a b => key b ≤ key a) (hl' : l'.Pairwise fun a b => key b ≤ key a)
    (h : ∀ c, (l.filter fun a => key a = c) = l'.filter fun a => key a = c) : l = l' := by
  have hmem : ∀ {m m' : List α}, (∀ c, (m.filter fun a => key a = c) = m'.filter fun a => key a = c) →
      ∀ a ∈ m, a ∈ m' := by
    intro m m' hm a ha
    have hfilt : a ∈ m.filter fun b => key b = key a := mem_filter.mpr ⟨ha, by simp⟩
    rw [hm] at hfilt
    exact (mem_filter.mp hfilt).1
  induction l generalizing l' with
  | nil =>
    cases l' with
    | nil => rfl
    | cons b l' => exact absurd (hmem (fun c => (h c).symm) b mem_cons_self) not_mem_nil
  | cons a l ih =>
    cases l' with
    | nil => exact absurd (hmem h a mem_cons_self) not_mem_nil
    | cons b l' =>
      rw [pairwise_cons] at hl hl'
      have hab : key a ≤ key b := by
        rcases mem_cons.mp (hmem h a mem_cons_self) with rfl | ha
        · exact le_rfl
        · exact hl'.1 a ha
      have hba : key b ≤ key a := by
        rcases mem_cons.mp (hmem (fun c => (h c).symm) b mem_cons_self) with rfl | hb
        · exact le_rfl
        · exact hl.1 b hb
      have hkey : key b = key a := le_antisymm hba hab
      have hhead := h (key a)
      simp only [filter_cons, hkey, decide_true, if_true, List.cons.injEq] at hhead
      obtain ⟨rfl, -⟩ := hhead
      refine congrArg (a :: ·) (ih hl.2 hl'.2 fun c => ?_)
      have hc := h c
      simp only [filter_cons] at hc
      split at hc
      · exact (List.cons.inj hc).2
      · exact hc

/-- The stable sort is the only sorted list in which the elements with each key are as in the input. -/
theorem eq_sortDescending (hsorted : l'.Pairwise fun a b => key b ≤ key a)
    (h : ∀ c, (l'.filter fun a => key a = c) = l.filter fun a => key a = c) : l' = sortDescending key l :=
  eq_of_filter_eq hsorted (sortDescending_sorted key l) fun c => (h c).trans (filter_sortDescending key l c).symm

/-- The keys of a sorted list do not depend on the order of the input. -/
theorem map_sortDescending_congr (h : (l.map key).Perm (l'.map key)) :
    (sortDescending key l).map key = (sortDescending key l').map key := by
  have hsorted : ∀ m : List α, ((sortDescending key m).map key).Pairwise fun a b => b ≤ a := fun m =>
    pairwise_map.mpr (sortDescending_sorted key m)
  have hperm := (((sortDescending_perm key l).map key).trans h).trans ((sortDescending_perm key l').map key).symm
  exact hperm.eq_of_pairwise (fun _ _ _ _ hab hba => le_antisymm hba hab) (hsorted l) (hsorted l')

end SortBy

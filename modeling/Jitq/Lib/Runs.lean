import Mathlib.Data.List.Basic
import Mathlib.Data.List.Nodup
import Mathlib.Data.List.Sublists

namespace Runs

open List

/-! # Sequences with adjacent equal elements

`Grouped xs` says that between two equal elements of `xs` there are only elements equal to both: each
value of `xs` forms one run.  Sequences of distinct elements and sorted sequences are of this kind,
and so is a sequence of distinct elements each of which is repeated any number of times.

Elements are compared by `==`, which need not be reflexive. -/

variable {α β : Type}

/-- Elements that are equal by `==` are adjacent. -/
def Grouped [BEq α] (xs : List α) : Prop := ∀ x y z, [x, y, z].Sublist xs → x == z → x == y

/-- No two elements are equal by `==`. -/
def Distinct [BEq α] (xs : List α) : Prop := xs.Pairwise fun x y => (x == y) = false

section Equality

variable [BEq α] {xs ys : List α} {x y z : α}

theorem Grouped.sublist (h : Grouped xs) (hsub : ys.Sublist xs) : Grouped ys :=
  fun x y z hxyz => h x y z (hxyz.trans hsub)

/-- Behind an element that differs from the first one, no element is equal to it. -/
theorem Grouped.ne_of_mem (h : Grouped (x :: y :: xs)) (hne : ¬ x == y) (hz : z ∈ xs) :
    (x == z) = false := by
  by_contra heq
  rw [Bool.not_eq_false] at heq
  exact hne (h x y z (((singleton_sublist.mpr hz).cons_cons _).cons_cons _) heq)

/-- A sequence is grouped if every three of its elements are. -/
theorem grouped_of_pairwise {R : α → α → Prop} (h : xs.Pairwise R)
    (hR : ∀ {x y z}, R x y → R y z → R x z → x == z → x == y) : Grouped xs := by
  intro x y z hsub hxz
  obtain ⟨hx, hyz⟩ := pairwise_cons.mp (h.sublist hsub)
  exact hR (hx y (by simp)) ((pairwise_cons.mp hyz).1 z (by simp)) (hx z (by simp)) hxz

theorem Distinct.grouped (h : Distinct xs) : Grouped xs :=
  grouped_of_pairwise h fun _ _ hne heq => absurd (hne.symm.trans heq) Bool.false_ne_true

end Equality

/-! ### Repetitions -/

section Repeats

variable (count : α → ℕ) (f : α → β)

/-- The values of `f` along a list, each repeated as often as `count` says. -/
def repeats (rs : List α) : List β := rs.flatMap fun r => replicate (count r) (f r)

variable {count f}

theorem repeats_cons (r : α) (rs : List α) :
    repeats count f (r :: rs) = replicate (count r) (f r) ++ repeats count f rs := rfl

variable {rs : List α}

theorem exists_of_mem_repeats {y : β} (h : y ∈ repeats count f rs) : ∃ r ∈ rs, f r = y := by
  obtain ⟨r, hr, hy⟩ := mem_flatMap.mp h
  exact ⟨r, hr, (eq_of_mem_replicate hy).symm⟩

theorem pairwise_repeats {R : β → β → Prop} (hrefl : ∀ y, R y y)
    (h : (rs.map f).Pairwise R) : (repeats count f rs).Pairwise R := by
  induction rs with
  | nil => exact List.Pairwise.nil
  | cons r rs ih =>
    rw [map_cons, pairwise_cons] at h
    rw [repeats_cons, pairwise_append]
    refine ⟨pairwise_replicate.mpr (.inr (hrefl _)), ih h.2, fun x hx y hy => ?_⟩
    obtain ⟨r', hr', rfl⟩ := exists_of_mem_repeats hy
    rw [eq_of_mem_replicate hx]
    exact h.1 _ (mem_map_of_mem hr')

/-- A run in front of elements that differ from it. -/
theorem grouped_replicate_append [BEq α] {xs : List α} {n : ℕ} {a : α} (h : Grouped xs)
    (ha : ∀ x ∈ xs, (a == x) = false) : Grouped (replicate n a ++ xs) := by
  intro x y z hsub hxz
  obtain ⟨l1, l2, heq, h1, h2⟩ := sublist_append_iff.mp hsub
  have hrun : ∀ w ∈ l1, w = a := fun w hw => eq_of_mem_replicate (h1.subset hw)
  have hlast : x = a → z ∈ xs → x == y := fun hx hz =>
    absurd ((ha z hz).symm.trans (hx ▸ hxz)) Bool.false_ne_true
  -- where the three elements are cut
  match l1, heq with
  | [], heq => exact h x y z (heq ▸ h2) hxz
  | [w], heq =>
    obtain ⟨rfl, rfl⟩ := List.cons.inj heq
    exact hlast (hrun x (by simp)) (h2.subset (by simp))
  | [w, u], heq =>
    obtain ⟨rfl, rfl, rfl⟩ := heq
    exact hlast (hrun x (by simp)) (h2.subset (by simp))
  | [w, u, t], heq =>
    obtain ⟨rfl, rfl, rfl, -⟩ := heq
    rwa [hrun y (by simp), ← hrun z (by simp)]
  | _ :: _ :: _ :: _ :: _, heq => simp at heq

theorem grouped_repeats [BEq β] (h : Distinct (rs.map f)) : Grouped (repeats count f rs) := by
  induction rs with
  | nil => exact Distinct.grouped .nil
  | cons r rs ih =>
    obtain ⟨hnew, hrest⟩ := pairwise_cons.mp h
    refine grouped_replicate_append (ih hrest) fun y hy => ?_
    obtain ⟨r', hr', rfl⟩ := exists_of_mem_repeats hy
    exact hnew _ (mem_map_of_mem hr')

theorem repeats_sublist (h : ∀ r ∈ rs, count r ≤ 1) : (repeats count f rs).Sublist (rs.map f) := by
  induction rs with
  | nil => exact List.Sublist.refl _
  | cons r rs ih =>
    have hrest := ih fun r' hr' => h r' (mem_cons_of_mem _ hr')
    rw [repeats_cons, map_cons]
    rcases Nat.le_one_iff_eq_zero_or_eq_one.mp (h r mem_cons_self) with hzero | hone
    · rw [hzero]
      exact hrest.cons _
    · rw [hone]
      exact hrest.cons_cons _

end Repeats

end Runs

import Jitq.Operators.Blocking
import Jitq.Lib.SortBy

namespace Jitq.Operators

open Fuel Pull SortBy List

/-! # TopK — a bounded multiset and the stable sort

`TopKOperator` keeps the best `k` tuples seen so far in a multiset and compares each further tuple with a copy of
the smallest one.  After a prefix of the input the multiset is the beginning of the stable descending sort of that
prefix (`topKContainer_eq`), so the operator emits the first `k` elements of the sorted input.

The optimizer runs a TopK on each part of a divided input and another one on the collected results.  A tuple that is
not among the best `k` of its part has `k` tuples in front of it (`topKeys_append`), so it is not missed. -/

variable {τ κ : Type} [LinearOrder κ] {v0 : τ → κ}

/-! ### Insertion into a sorted multiset -/

variable {t : τ} {l xs : List τ} {k : ℕ}

theorem mem_multisetInsert {x : τ} : x ∈ multisetInsert v0 t l ↔ x = t ∨ x ∈ l := by
  induction l with
  | nil => simp [multisetInsert]
  | cons y ys ih =>
    rw [multisetInsert]
    split
    · exact mem_cons
    · rw [mem_cons, ih, mem_cons]
      tauto

theorem multisetInsert_sorted (t : τ) (h : l.Pairwise fun a b => v0 b ≤ v0 a) :
    (multisetInsert v0 t l).Pairwise fun a b => v0 b ≤ v0 a := by
  induction l with
  | nil => exact pairwise_singleton _ t
  | cons y ys ih =>
    rw [pairwise_cons] at h
    rw [multisetInsert]
    split
    · -- the new tuple is greater than `y`, and with it greater than all the others
      rename_i hlt
      refine pairwise_cons.mpr ⟨fun x hx => ?_, pairwise_cons.mpr h⟩
      rcases mem_cons.mp hx with rfl | hx
      · exact hlt.le
      · exact (h.1 x hx).trans hlt.le
    · rename_i hge
      refine pairwise_cons.mpr ⟨fun x hx => ?_, ih h.2⟩
      rcases mem_multisetInsert.mp hx with rfl | hx
      · exact not_lt.mp hge
      · exact h.1 x hx

/-- A tuple is inserted behind those with the same first field. -/
theorem filter_multisetInsert (t : τ) (h : l.Pairwise fun a b => v0 b ≤ v0 a) (c : κ) :
    ((multisetInsert v0 t l).filter fun a => v0 a = c) = (l ++ [t]).filter fun a => v0 a = c := by
  induction l with
  | nil => rfl
  | cons y ys ih =>
    rw [pairwise_cons] at h
    rw [multisetInsert]
    split
    · rename_i hlt
      by_cases hc : v0 t = c
      · -- nothing behind the new tuple has its first field
        have hnone : ((y :: ys).filter fun a => v0 a = c) = [] := by
          apply filter_eq_nil_iff.mpr
          intro x hx
          have hle : v0 x ≤ v0 y := by
            rcases mem_cons.mp hx with rfl | hx
            · exact le_rfl
            · exact h.1 x hx
          have hne : v0 x ≠ c := ((hle.trans_lt hlt).trans_eq hc).ne
          simpa using hne
        rw [filter_cons, filter_append, hnone]
        simp [hc]
      · rw [filter_cons, filter_append]
        simp [hc]
    · rw [filter_cons, ih h.2, cons_append, filter_cons]

/-- The multiset of a whole input is the stable sort of it. -/
theorem multisetInsert_sortDescending (t : τ) (xs : List τ) :
    multisetInsert v0 t (sortDescending v0 xs) = sortDescending v0 (xs ++ [t]) := by
  apply eq_sortDescending (multisetInsert_sorted t (sortDescending_sorted v0 xs))
  intro c
  rw [filter_multisetInsert t (sortDescending_sorted v0 xs), filter_append, filter_append, filter_sortDescending]

theorem foldl_multisetInsert (xs p : List τ) :
    xs.foldl (fun c t => multisetInsert v0 t c) (sortDescending v0 p) = sortDescending v0 (p ++ xs) := by
  induction xs generalizing p with
  | nil => rw [append_nil, foldl_nil]
  | cons x xs ih => rw [foldl_cons, multisetInsert_sortDescending, ih, append_assoc, singleton_append]

/-! ### The first `k` elements -/

/-- A tuple that is greater than the last of the first `k + 1` elements pushes that one out. -/
theorem take_multisetInsert_of_lt {y : τ} (hy : l[k]? = some y) (hlt : v0 y < v0 t) :
    (multisetInsert v0 t l).take (k + 1) = multisetInsert v0 t (l.take k) := by
  induction l generalizing k with
  | nil => simp at hy
  | cons x xs ih =>
    cases k with
    | zero =>
      obtain rfl : x = y := by simpa using hy
      rw [multisetInsert, if_pos hlt]
      rfl
    | succ k =>
      rw [take_succ_cons, multisetInsert, multisetInsert]
      split
      · rfl
      · rw [take_succ_cons, ih (by simpa using hy)]

/-- A tuple that is not greater than any of the first `k` elements comes behind them. -/
theorem take_multisetInsert_of_not_lt (hk : k ≤ l.length) (h : ∀ y ∈ l.take k, ¬ v0 y < v0 t) :
    (multisetInsert v0 t l).take k = l.take k := by
  induction l generalizing k with
  | nil =>
    obtain rfl : k = 0 := by simpa using hk
    rfl
  | cons x xs ih =>
    cases k with
    | zero => rfl
    | succ k =>
      rw [multisetInsert, if_neg (h x mem_cons_self), take_succ_cons, take_succ_cons,
        ih (by simpa using hk) fun y hy => h y (mem_cons_of_mem x hy)]

/-! ### The operator -/

/-- The container and the copy of its smallest tuple, after the prefix `p` of the input. -/
def HoldsBest (v0 : τ → κ) (k : ℕ) (p : List τ) (c : List τ × τ) : Prop :=
  c.1 = (sortDescending v0 p).take (k + 1) ∧ (sortDescending v0 p)[k]? = some c.2

theorem HoldsBest.replace {p : List τ} {c : List τ × τ} (h : HoldsBest v0 k p c) (t : τ) :
    HoldsBest v0 k (p ++ [t]) (topKReplace v0 c t) := by
  obtain ⟨hc, hlast⟩ := h
  obtain ⟨hlt, hget⟩ := List.getElem?_eq_some_iff.mp hlast
  have hinsert : multisetInsert v0 t (sortDescending v0 p) = _ := multisetInsert_sortDescending t p
  rw [topKReplace]
  split
  · rename_i hgt
    have htake := take_multisetInsert_of_lt hlast hgt
    rw [hinsert] at htake
    have hdrop : c.1.dropLast = (sortDescending v0 p).take k := by
      rw [hc, dropLast_eq_take, length_take, take_take]
      congr 1
      omega
    have hlen : k < (sortDescending v0 (p ++ [t])).length := by
      simp only [length_sortDescending, length_append, length_singleton] at hlt ⊢
      omega
    refine ⟨?_, ?_⟩
    · show multisetInsert v0 t c.1.dropLast = _
      rw [hdrop, htake]
    · -- the last of the first `k + 1` elements is the one at position `k`
      show _ = some ((multisetInsert v0 t c.1.dropLast).getLast?.getD c.2)
      rw [hdrop, ← htake, getLast?_take, if_neg (Nat.succ_ne_zero k), Nat.add_sub_cancel, getElem?_eq_getElem hlen]
      rfl
  · rename_i hle
    have hall : ∀ y ∈ (sortDescending v0 p).take (k + 1), ¬ v0 y < v0 t := by
      intro y hy hyt
      obtain ⟨i, hi, rfl⟩ := getElem_of_mem hy
      rw [length_take] at hi
      rw [getElem_take] at hyt
      -- the element at position `k` is the smallest of them
      have hik : v0 c.2 ≤ v0 ((sortDescending v0 p)[i]) := by
        rcases Nat.lt_or_ge i k with hlt' | hge
        · rw [← hget]
          exact pairwise_iff_getElem.mp (sortDescending_sorted v0 p) i k (by omega) hlt hlt'
        · obtain rfl : i = k := by omega
          rw [hget]
      exact hle (hik.trans_lt hyt)
    have htake := take_multisetInsert_of_not_lt (by omega) hall
    rw [hinsert] at htake
    refine ⟨hc.trans htake.symm, ?_⟩
    have hat := congrArg (·[k]?) htake
    simp only [getElem?_take, Nat.lt_succ_self, if_true] at hat
    rw [hat, hlast]

theorem HoldsBest.foldl {p : List τ} {c : List τ × τ} (h : HoldsBest v0 k p c) (xs : List τ) :
    HoldsBest v0 k (p ++ xs) (xs.foldl (topKReplace v0) c) := by
  induction xs generalizing p c with
  | nil => simpa using h
  | cons x xs ih => simpa using ih (h.replace x)

/-- The container of a TopK is the beginning of the sorted input. -/
theorem topKContainer_eq (k : ℕ) (xs : List τ) : topKContainer v0 k [] xs = (sortDescending v0 xs).take k := by
  have hfill : (xs.take k).foldl (fun c t => multisetInsert v0 t c) (sortDescending v0 []) = _ :=
    foldl_multisetInsert (xs.take k) []
  rw [sortDescending_nil, nil_append] at hfill
  simp only [topKContainer, hfill]
  rcases Nat.lt_or_ge k xs.length with hlt | hge
  · cases k with
    | zero => simp
    | succ k =>
      -- the first loop has filled the container, the second one replaces
      have hlen : (sortDescending v0 (xs.take (k + 1))).length = k + 1 := by
        rw [length_sortDescending, length_take]
        omega
      have hlast : (sortDescending v0 (xs.take (k + 1))).getLast? = (sortDescending v0 (xs.take (k + 1)))[k]? := by
        rw [getLast?_eq_getElem?, hlen, Nat.add_sub_cancel]
      have hget := getElem?_eq_getElem (l := sortDescending v0 (xs.take (k + 1))) (i := k) (by omega)
      rw [hlast, hget]
      have hbest : HoldsBest v0 k (xs.take (k + 1))
          (sortDescending v0 (xs.take (k + 1)), (sortDescending v0 (xs.take (k + 1))).get ⟨k, by omega⟩) :=
        ⟨(take_of_length_le hlen.le).symm, hget⟩
      have hend := (hbest.foldl (xs.drop (k + 1))).1
      rwa [take_append_drop] at hend
  · -- the input ends in the first loop
    rw [take_of_length_le hge, drop_of_length_le hge, take_of_length_le (by simpa using hge)]
    split
    · rfl
    · rfl

/-! ### Divided inputs -/

/-- The first fields that a TopK emits. -/
def topKeys (v0 : τ → κ) (k : ℕ) (xs : List τ) : List κ := ((sortDescending v0 xs).take k).map v0

theorem topKeys_congr {ys : List τ} (h : xs.Perm ys) : topKeys v0 k xs = topKeys v0 k ys := by
  rw [topKeys, topKeys, map_take, map_take, map_sortDescending_congr (h.map v0)]

/-- The number of tuples whose first field is at least `c`. -/
def countFrom (v0 : τ → κ) (c : κ) (xs : List τ) : ℕ := xs.countP fun x => c ≤ v0 x

/-- If `k` tuples of a sorted list are at least `c`, the first `k` are. -/
theorem le_of_mem_take {c : κ} (h : l.Pairwise fun a b => v0 b ≤ v0 a) (hc : k ≤ countFrom v0 c l) :
    ∀ y ∈ l.take k, c ≤ v0 y := by
  induction l generalizing k with
  | nil => simp
  | cons x xs ih =>
    cases k with
    | zero => simp
    | succ k =>
      rw [pairwise_cons] at h
      -- the first one is: it is at least as great as any other
      have hx : c ≤ v0 x := by
        by_contra hx
        have hzero : countFrom v0 c (x :: xs) = 0 := by
          apply countP_eq_zero.mpr
          intro y hy
          rcases mem_cons.mp hy with rfl | hy
          · simpa using hx
          · simpa using (h.1 y hy).trans_lt (not_le.mp hx)
        omega
      have hcount : countFrom v0 c (x :: xs) = countFrom v0 c xs + 1 := countP_cons_of_pos (by simpa using hx)
      intro y hy
      rcases mem_cons.mp hy with rfl | hy
      · exact hx
      · exact ih h.2 (by omega) y hy

/-- A tuple with `k` tuples in front of it does not change what is emitted. -/
theorem topKeys_concat (h : k ≤ countFrom v0 (v0 t) xs) : topKeys v0 k (xs ++ [t]) = topKeys v0 k xs := by
  have hcount : countFrom v0 (v0 t) (sortDescending v0 xs) = countFrom v0 (v0 t) xs :=
    (sortDescending_perm v0 xs).countP_eq _
  have hlen : k ≤ (sortDescending v0 xs).length := by
    rw [length_sortDescending]
    exact h.trans countP_le_length
  have hfirst := le_of_mem_take (sortDescending_sorted v0 xs) (hcount ▸ h)
  rw [topKeys, ← multisetInsert_sortDescending,
    take_multisetInsert_of_not_lt hlen fun y hy => not_lt.mpr (hfirst y hy), ← topKeys]

theorem topKeys_append {rest : List τ} (h : ∀ t ∈ rest, k ≤ countFrom v0 (v0 t) xs) :
    topKeys v0 k (xs ++ rest) = topKeys v0 k xs := by
  induction rest generalizing xs with
  | nil => rw [append_nil]
  | cons t rest ih =>
    have hrest : ∀ s ∈ rest, k ≤ countFrom v0 (v0 s) (xs ++ [t]) := by
      intro s hs
      apply (h s (mem_cons_of_mem t hs)).trans
      rw [countFrom, countFrom, countP_append]
      omega
    rw [← singleton_append, ← append_assoc, ih hrest, topKeys_concat (h t mem_cons_self)]

/-- Of a part, the best `k` tuples are enough. -/
theorem topKeys_take_append (k : ℕ) (xs ys : List τ) :
    topKeys v0 k ((sortDescending v0 xs).take k ++ ys) = topKeys v0 k (xs ++ ys) := by
  have hperm : (xs ++ ys).Perm (((sortDescending v0 xs).take k ++ ys) ++ (sortDescending v0 xs).drop k) := by
    rw [append_assoc]
    refine ((sortDescending_perm v0 xs).symm.append_right ys).trans ?_
    nth_rewrite 1 [← take_append_drop k (sortDescending v0 xs)]
    rw [append_assoc]
    exact List.Perm.append_left _ perm_append_comm
  rw [topKeys_congr hperm]
  apply Eq.symm
  apply topKeys_append
  intro t ht
  -- every tuple that was cut off has the `k` tuples in front of it that were kept
  have hsplit : ((sortDescending v0 xs).take k ++ (sortDescending v0 xs).drop k).Pairwise fun a b => v0 b ≤ v0 a := by
    rw [take_append_drop]
    exact sortDescending_sorted v0 xs
  have hkept := (pairwise_append.mp hsplit).2.2
  have hlen : ((sortDescending v0 xs).take k).length = k := by
    have hpos := length_pos_of_mem ht
    rw [length_drop] at hpos
    rw [length_take]
    omega
  have hcount : countFrom v0 (v0 t) ((sortDescending v0 xs).take k) = k := by
    rw [countFrom, countP_eq_length.mpr, hlen]
    intro y hy
    simpa using hkept y hy t ht
  rw [countFrom, countP_append, ← countFrom, hcount]
  omega

/-- The best `k` tuples of each part have the best `k` first fields of the whole. -/
theorem topKeys_flatten (k : ℕ) (parts : List (List τ)) (ys : List τ) :
    topKeys v0 k ((parts.map fun part => (sortDescending v0 part).take k).flatten ++ ys) =
      topKeys v0 k (parts.flatten ++ ys) := by
  induction parts generalizing ys with
  | nil => rfl
  | cons part parts ih =>
    rw [map_cons, flatten_cons, flatten_cons, append_assoc, topKeys_take_append]
    -- the remaining parts are reduced with this one as a part of the tuples that follow
    calc topKeys v0 k (part ++ ((parts.map fun part => (sortDescending v0 part).take k).flatten ++ ys))
        = topKeys v0 k ((parts.map fun part => (sortDescending v0 part).take k).flatten ++ (part ++ ys)) :=
          topKeys_congr (by rw [← append_assoc, ← append_assoc]; exact perm_append_comm.append_right ys)
      _ = topKeys v0 k (parts.flatten ++ (part ++ ys)) := ih (part ++ ys)
      _ = topKeys v0 k (part ++ parts.flatten ++ ys) :=
          topKeys_congr (by rw [← append_assoc]; exact perm_append_comm.append_right ys)

/-- **TopK and its distribution.**  A TopK emits the first `k` elements of the stable descending sort of its input.
    If an input is divided into parts in any way, a TopK over the collected results of a TopK on each part emits the
    same first fields as a TopK over the whole input. -/
theorem topK_law (v0 : τ → κ) (k : ℕ) :
    (∀ {u : Iter τ} {xs : List τ}, Replay u xs →
      Returns (topKOperator v0 k u).firstDrain ((sortDescending v0 xs).take k)) ∧
    ∀ (xs : List τ) (parts results : List (List τ)), parts.flatten.Perm xs →
      List.Forall₂ (fun part result => ∃ u, Nonempty (Replay u part) ∧
        Returns (topKOperator v0 k u).firstDrain result) parts results →
      ∀ {u u' : Iter τ}, Replay u xs → Replay u' results.flatten →
        ∃ whole collected, Returns (topKOperator v0 k u).firstDrain whole ∧
          Returns (topKOperator v0 k u').firstDrain collected ∧ (collected.map v0).Perm (whole.map v0) := by
  have hemits : ∀ {u : Iter τ} {xs : List τ}, Replay u xs →
      Returns (topKOperator v0 k u).firstDrain ((sortDescending v0 xs).take k) := by
    intro u xs R
    have hdrain := topK_firstDrain v0 R k
    rwa [topKContainer_eq, Int.toNat_natCast] at hdrain
  refine ⟨hemits, ?_⟩
  intro xs parts results hparts hresults u u' R R'
  have hmap : results = parts.map fun part => (sortDescending v0 part).take k := by
    have heach : List.Forall₂ (fun part result => (sortDescending v0 part).take k = result) parts results := by
      apply hresults.imp
      rintro part result ⟨w, ⟨S⟩, hres⟩
      exact (hemits S).unique hres
    have hall := forall₂_map_left_iff.mpr heach
    rw [forall₂_eq_eq_eq] at hall
    exact hall.symm
  refine ⟨_, _, hemits R, hemits R', ?_⟩
  have hkeys : topKeys v0 k ((parts.map fun part => (sortDescending v0 part).take k).flatten ++ []) = _ :=
    topKeys_flatten k parts []
  rw [append_nil, append_nil, ← hmap, topKeys_congr hparts] at hkeys
  exact List.Perm.of_eq hkeys

end Jitq.Operators

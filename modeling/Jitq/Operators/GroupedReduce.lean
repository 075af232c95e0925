import Jitq.Lib.Runs
import Jitq.Operators.Blocking
import Jitq.Operators.Grouping

namespace Jitq.Operators

open Fuel Pull HashTable Runs List

/-! # The two reductions by key

`ReduceByKeyOperator` folds its input into a hash table, `ReduceByKeyGroupedOperator` looks ahead to the end of a
run of equal keys.  If equal keys are adjacent, the runs are the entries of the table in the order of their
insertion.

Keys are compared with `==` and `!=` in both, so a key that is not equal to itself forms a group of its own, and of
several equal keys the first one is returned. -/

variable {τ ρ K V : Type} [BEq K] [PartialEquivBEq K] (getKey : τ → K) (getValue : τ → V) (func : V → V → V)

/-- A tuple as the reductions split it. -/
def keyValue (t : τ) : K × V := (getKey t, getValue t)

/-- The run of `k` is the last entry of the table.  The induction is on the tuples that are left; `front` are the
    entries of the runs before, whose keys do not come again. -/
theorem reduceTable_append_run {front : List (K × V)} {k : K} {v : V} {ts : List τ}
    (hfront : ∀ e ∈ front, ∀ t ∈ ts, (e.1 == getKey t) = false) (hgrpd : Grouped (k :: ts.map getKey)) :
    reduceTable func (front ++ [(k, v)]) (ts.map (keyValue getKey getValue)) =
      front ++ groupedFrom getKey getValue func k v ts := by
  induction ts generalizing front k v with
  | nil => rfl
  | cons t ts ih =>
    have hrest : ∀ e ∈ front, ∀ t' ∈ ts, (e.1 == getKey t') = false :=
      fun e he t' ht' => hfront e he t' (mem_cons_of_mem _ ht')
    rw [map_cons, reduceTable, foldl_cons, ← reduceTable,
      emplace_append func fun e he => hfront e he t mem_cons_self, groupedFrom, emplace]
    by_cases hk : getKey t == k
    · -- the same run
      have hsame : ¬ (getKey t != k) = true := by
        rw [bne, hk]
        exact Bool.false_ne_true
      rw [if_neg hsame, if_pos (show ((k, v).1 == (keyValue getKey getValue t).1) = true from BEq.symm hk)]
      refine ih hrest (hgrpd.sublist ?_)
      exact (sublist_cons_self _ _).cons_cons k
    · -- a new run, and `k` does not come again
      have hnew : (getKey t != k) = true := by
        rw [bne, Bool.not_eq_true _ |>.mp hk]
        rfl
      have hne : ¬ (k == getKey t) = true := fun h => hk (BEq.symm h)
      rw [if_pos hnew, if_neg (show ¬ ((k, v).1 == (keyValue getKey getValue t).1) = true from hne), emplace]
      have hearlier : ∀ e ∈ front ++ [(k, v)], ∀ t' ∈ ts, (e.1 == getKey t') = false := by
        intro e he t' ht'
        rcases mem_append.mp he with he | he
        · exact hrest e he t' ht'
        · rw [mem_singleton.mp he]
          exact hgrpd.ne_of_mem hne (mem_map_of_mem ht')
      have hrun := ih (k := getKey t) (v := getValue t) hearlier (hgrpd.sublist (sublist_cons_self _ _))
      rw [append_assoc, append_assoc] at hrun
      exact hrun

/-- **The runs of grouped input are the entries of the hash table.** -/
theorem reduceByKeyGroupedRows_eq {xs : List τ} (hgrpd : Grouped (xs.map getKey)) :
    reduceByKeyGroupedRows getKey getValue func xs = reduceTable func [] (xs.map (keyValue getKey getValue)) := by
  cases xs with
  | nil => rfl
  | cons t ts =>
    have hnone : ∀ e ∈ ([] : List (K × V)), ∀ t' ∈ ts, (e.1 == getKey t') = false := nofun
    exact (reduceTable_append_run getKey getValue func hnone hgrpd).symm

/-- Both are the left folds of the values of each key. -/
theorem reduceTable_nil_eq (kvs : List (K × V)) : reduceTable func [] kvs = foldByKey func [] kvs :=
  reduceTable_eq_foldByKey func List.Pairwise.nil

/-- **The two operators return the same tuples** on grouped input, up to the order of the hash table. -/
theorem reductions_agree (iteration : List (K × V) → List (K × V)) (hiteration : ∀ table, (iteration table).Perm table)
    (tupleCat : K × V → ρ) {u : Iter τ} {xs : List τ} (R : Replay u xs) (hgrpd : Grouped (xs.map getKey)) :
    ∃ rows rows' : List ρ, Returns (reduceByKeyGroupedOperator getKey getValue func tupleCat u).firstDrain rows ∧
      Returns (reduceByKeyTable iteration (keyValue getKey getValue) func tupleCat u).firstDrain rows' ∧
      rows = (foldByKey func [] (xs.map (keyValue getKey getValue))).map tupleCat ∧ rows.Perm rows' := by
  refine ⟨_, _, (reduceByKeyGroupedReplay getKey getValue func tupleCat R).reopens.first,
    reduceByKeyTable_firstDrain iteration _ func tupleCat R, ?_, ?_⟩
  · rw [reduceByKeyGroupedRows_eq getKey getValue func hgrpd, reduceTable_nil_eq]
  · rw [reduceByKeyGroupedRows_eq getKey getValue func hgrpd]
    exact (hiteration _).symm.map _

end Jitq.Operators

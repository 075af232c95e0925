import Jitq.Lib.Firsts
import Jitq.Operators.Blocking
import Jitq.Operators.EquiJoins
import Jitq.Operators.Partition

namespace Jitq.Operators

open Fuel Pull HashTable Firsts List

/-! # Operators on workers

`HandleSeedOperatorVisitor` of `ParallelizeConcurrent` replaces an operator by a plan that runs on several workers.
Here the operators of that plan return together what the one operator returns for the whole input:

* `reduce_distributes` — `Reduce` and `EnsureSingleTuple` on each worker, `Reduce` behind them;
* `reduceByKey_distributes` — `ReduceByKey` on each worker, an exchange, and `ReduceByKey` again;
* `joins_distribute` — an exchange in front of each input of a join.

The functions of the reductions are associative and commutative, and the exchanges may deliver the tuples in any
order.  That they bring equal keys to one worker is an assumption here: it is what `Operators.Partition` shows of
the keys of type `int` and `long`, and `Runtime.ExchangeGroup` of the exchanges in several levels. -/

variable {τ ρ K V : Type} {u : Iter τ} {xs : List τ}

/-- An operator returns `rows` for the input `xs`. -/
def Maps (op : Iter τ → Iter ρ) (xs : List τ) (rows : List ρ) : Prop :=
  ∀ u, Nonempty (Replay u xs) → Returns (op u).firstDrain rows

/-! ### Reduce -/

section Reduce

/-- `EnsureSingleTupleOperator`, which throws at a second tuple. -/
def ensureSingleTupleOperator (upstream : Iter τ) : Iter τ where
  State := upstream.State
  fresh := upstream.fresh
  open_ := upstream.open_
  next s := upstream.next s >>= fun
    | (none, s) => pure (none, s)
    | (some ret, s) => upstream.next s >>= fun
      | (some _, _) => fail
      | (none, s) => pure (some ret, s)
  close := upstream.close

/-- At most one tuple is handed on. -/
def ensureSingleTupleReplay (R : Replay u xs) (h : xs.length ≤ 1) : Replay (ensureSingleTupleOperator u) xs where
  Busy s ys := R.Busy s ys ∧ ys.length ≤ 1
  next_nil := by
    rintro s ⟨hs, -⟩
    obtain ⟨s', hnext, hs'⟩ := R.next_nil hs
    exact ⟨s', hnext.bind (.pure _), hs', zero_le_one⟩
  next_cons := by
    rintro s y ys ⟨hs, hlen⟩
    obtain rfl : ys = [] := length_eq_zero_iff.mp (by simpa using hlen)
    obtain ⟨s₁, hnext₁, hs₁⟩ := R.next_cons hs
    obtain ⟨s₂, hnext₂, hs₂⟩ := R.next_nil hs₁
    exact ⟨s₂, hnext₁.bind (hnext₂.bind (.pure _)), hs₂, zero_le_one⟩
  Idle := R.Idle
  fresh := R.fresh
  opens hidle := by
    obtain ⟨s, hopen, hs⟩ := R.opens hidle
    exact ⟨s, hopen, hs, h⟩
  close hs := R.close hs.1

variable [AddCommSemigroup τ]

theorem reduceRows_add (xs : List τ) : reduceRows (· + ·) xs = Option.toList (xs.map WithZero.coe).sum := by
  rw [← aggregate_none_add]
  cases xs with
  | nil => rfl
  | cons x xs =>
    show [xs.foldl (· + ·) x] = Option.toList (aggregate (· + ·) (some x) xs)
    induction xs generalizing x with
    | nil => rfl
    | cons y xs ih => exact ih (x + y)

/-- Reducing the parts of an input does not change the sum. -/
theorem sum_flatten_reduceRows (parts : List (List τ)) :
    ((parts.map (reduceRows (· + ·))).flatten.map WithZero.coe).sum = (parts.flatten.map WithZero.coe).sum := by
  induction parts with
  | nil => rfl
  | cons part parts ih =>
    rw [map_cons, flatten_cons, flatten_cons, map_append, map_append, sum_append, sum_append, ih,
      reduceRows_add, sum_toList]

/-- **Reduction in two phases.**  Each worker reduces its part behind an `EnsureSingleTuple`, which never throws
    there, and reducing what the workers return gives the result for the whole input, however the input is
    split and in whatever order the results arrive. -/
theorem reduce_distributes (parts : List (List τ)) : ∃ results rows,
    Forall₂ (Maps fun u => ensureSingleTupleOperator (reduceOperator (· + ·) u)) parts results ∧
    (∀ xs : List τ, xs.Perm parts.flatten → Maps (reduceOperator (· + ·)) xs rows) ∧
    ∀ xs, xs.Perm results.flatten → Maps (reduceOperator (· + ·)) xs rows := by
  have hred : ∀ xs ys : List τ, (xs.map WithZero.coe).sum = (ys.map WithZero.coe).sum →
      Maps (reduceOperator (· + ·)) xs (reduceRows (· + ·) ys) := by
    rintro xs ys hsum u ⟨R⟩
    rw [reduceRows_add, ← hsum, ← reduceRows_add]
    exact (reduceReplay R _).reopens.first
  refine ⟨parts.map (reduceRows (· + ·)), _, ?_, fun xs hxs => hred xs _ (hxs.map _).sum_eq, fun xs hxs => ?_⟩
  · rw [forall₂_map_right_iff, forall₂_same]
    rintro part - u ⟨R⟩
    have hsingle : (reduceRows (· + ·) part).length ≤ 1 := by cases part <;> simp [reduceRows]
    exact (ensureSingleTupleReplay (reduceReplay R _) hsingle).reopens.first
  · exact hred xs _ ((hxs.map _).sum_eq.trans (sum_flatten_reduceRows parts))

end Reduce

/-! ### ReduceByKey -/

section ReduceByKey

variable [AddCommSemigroup V] {e : τ ≃ K × V} {parts results : List (List τ)}

section Equality

variable [BEq K]

/-- `ReduceByKeyOperator` returns `rows` for the input `xs`, with some iteration order of its table.
    Its `KeyTypeEquals` is the `==` of the keys. -/
def Reduces (e : τ ≃ K × V) (xs rows : List τ) : Prop :=
  ∃ o : IterationOrder K, Maps (reduceByKeyOperator o e (· + ·) e.symm) xs rows

/-- The keys of one part are equal to none of another one. -/
def CoLocated (e : τ ≃ K × V) (parts : List (List τ)) : Prop :=
  parts.Pairwise fun p q => ∀ s ∈ p, ∀ t ∈ q, ¬ (e s).1 == (e t).1

variable [PartialEquivBEq K]

/-- The value returned for a key is the sum of its values in the input. -/
theorem Reduces.valuesOf_map {rows : List τ} (h : Reduces e xs rows) (k : K) :
    valuesOf k (rows.map e) = Option.toList (total k (xs.map e)) := by
  obtain ⟨o, hrets⟩ := h
  have hrows := (reduceByKey_firstDrain o e (· + ·) e.symm (Replay.ofList xs)).unique
    (hrets _ ⟨Replay.ofList xs⟩)
  rw [← hrows, reduceByKeyRows, map_map, Equiv.self_comp_symm, map_id, valuesOf_entries]

/-- Reducing the parts of an input does not change the sums. -/
theorem total_results (h : Forall₂ (Reduces e) parts results) (k : K) :
    total k (results.flatten.map e) = total k (parts.flatten.map e) := by
  induction h with
  | nil => rfl
  | cons hpart _ ih =>
    rw [flatten_cons, flatten_cons, map_append, map_append, total_append, total_append, ih, total,
      hpart.valuesOf_map, sum_toList]

/-- Where equal keys are in one part, the results of the parts are the result. -/
theorem valuesOf_results (h : Forall₂ (Reduces e) parts results) (hkeys : CoLocated e parts)
    (k : K) :
    valuesOf k (results.flatten.map e) = Option.toList (total k (parts.flatten.map e)) := by
  induction h with
  | nil => rfl
  | @cons part result parts results hpart _ ih =>
    obtain ⟨hother, hkeys⟩ := pairwise_cons.mp hkeys
    have hzero : total k (part.map e) = 0 ∨ total k (parts.flatten.map e) = 0 := by
      by_cases hk : ∃ s ∈ part, (e s).1 == k
      · -- the key is in the first part, so it is in no other one
        obtain ⟨s, hs, hsk⟩ := hk
        refine .inr (total_eq_zero fun kv hkv heq => ?_)
        obtain ⟨t, ht, rfl⟩ := mem_map.mp hkv
        obtain ⟨q, hq, ht⟩ := mem_flatten.mp ht
        exact hother q hq s hs t ht (BEq.trans hsk (BEq.symm heq))
      · refine .inl (total_eq_zero fun kv hkv heq => hk ?_)
        obtain ⟨s, hs, rfl⟩ := mem_map.mp hkv
        exact ⟨s, hs, heq⟩
    rw [flatten_cons, flatten_cons, map_append, map_append, total_append, toList_add hzero,
      ← hpart.valuesOf_map, ← ih hkeys, valuesOf, filter_append, map_append, valuesOf, valuesOf]

end Equality

/-- **Aggregation in two phases.**  Each worker reduces its part, an exchange brings equal keys to
    one worker, and the workers reduce what they received: together they return the result for the
    whole input.  Equal keys are the same here, like those of type `int`, `long` and `string`; of the
    keys `0.0` and `-0.0` the table keeps the one that it sees first. -/
theorem reduceByKey_distributes [DecidableEq K] (e : τ ≃ K × V) :
    (∀ xs, ∃ rows, Reduces e xs rows) ∧
    ∀ (xs whole : List τ) (parts results workers outputs : List (List τ)), parts.flatten.Perm xs →
      Forall₂ (Reduces e) parts results → workers.flatten.Perm results.flatten →
      CoLocated e workers → Forall₂ (Reduces e) workers outputs → Reduces e xs whole →
      outputs.flatten.Perm whole := by
  constructor
  · intro xs
    exact ⟨_, ⟨fun ks => range ks.length, fun _ => .refl _⟩,
      fun u ⟨R⟩ => reduceByKey_firstDrain _ _ _ _ R⟩
  intro xs whole parts results workers outputs hparts hresults hworkers hkeys houts hwhole
  refine (map_perm_map_iff e.injective).mp (perm_of_valuesOf fun k => ?_)
  calc valuesOf k (outputs.flatten.map e)
      = Option.toList (total k (workers.flatten.map e)) := valuesOf_results houts hkeys k
    _ = Option.toList (total k (xs.map e)) := by
        rw [total_perm (hworkers.map e), total_results hresults, total_perm (hparts.map e)]
    _ = valuesOf k (whole.map e) := (hwhole.valuesOf_map k).symm

end ReduceByKey

/-! ### Joins -/

section Joins

variable {n : ℕ} {worker : τ → Fin n} {op : Iter τ → Iter τ → Iter τ}

/-- Each worker runs `op` on the tuples that are sent to it, in any order, and the workers together return what
    `op` returns for the whole inputs. -/
def Distributes (op : Iter τ → Iter τ → Iter τ) (worker : τ → Fin n) : Prop :=
  ∀ (ls rs : List τ) (left right : Fin n → List τ), (∀ i, (left i).Perm (ls.filter fun l => worker l = i)) →
    (∀ i, (right i).Perm (rs.filter fun r => worker r = i)) → ∃ (whole : List τ) (parts : Fin n → List τ),
      (∀ ul, Nonempty (Replay ul ls) → Maps (op ul) rs whole) ∧
      (∀ i ul, Nonempty (Replay ul (left i)) → Maps (op ul) (right i) (parts i)) ∧
      ((finRange n).flatMap parts).Perm whole

theorem perm_flatMap_workers (worker : τ → Fin n) (ts : List τ) :
    ((finRange n).flatMap fun i => ts.filter fun t => worker t = i).Perm ts :=
  perm_flatMap_filter worker (nodup_finRange n) fun t _ => mem_finRange (worker t)

section Partners

-- the partners of a tuple are at the same worker
variable (partner : τ → τ → Bool) (hpartner : ∀ l r, partner l r → worker l = worker r)

include hpartner

/-- A join that returns a tuple for each pair of partners. -/
theorem distributes_pairs (combine : τ → τ → τ) (hop : ∀ {ul ur ls rs}, Replay ul ls → Replay ur rs →
      Returns (op ul ur).firstDrain (rs.flatMap fun r => (ls.filter (partner · r)).map (combine · r))) :
    Distributes op worker := by
  intro ls rs left right hleft hright
  refine ⟨_, _, fun _ ⟨RL⟩ _ ⟨RR⟩ => hop RL RR, fun i _ ⟨RL⟩ _ ⟨RR⟩ => hop RL RR, ?_⟩
  have hparts : ∀ i ∈ finRange n, ((right i).flatMap fun r => ((left i).filter (partner · r)).map (combine · r)).Perm
      ((rs.filter fun r => worker r = i).flatMap fun r => (ls.filter (partner · r)).map (combine · r)) := by
    intro i _
    refine (hright i).flatMap fun r hr => (((hleft i).filter _).trans (.of_eq ?_)).map _
    have hworker := of_decide_eq_true (mem_filter.mp ((hright i).mem_iff.mp hr)).2
    rw [filter_filter]
    exact filter_congr fun l _ =>
      Bool.and_eq_left_iff_imp.mpr fun h => decide_eq_true ((hpartner l r h).trans hworker)
  refine (Perm.flatMap_left _ hparts).trans ?_
  rw [← flatMap_assoc]
  exact (perm_flatMap_workers worker rs).flatMap_right _

/-- A join that keeps the left tuples with a partner, or those without one. -/
theorem distributes_filter (keep : Bool) (hop : ∀ {ul ur ls rs}, Replay ul ls → Replay ur rs →
      Returns (op ul ur).firstDrain (ls.filter fun l => rs.any (partner l) = keep)) : Distributes op worker := by
  intro ls rs left right hleft hright
  refine ⟨_, _, fun _ ⟨RL⟩ _ ⟨RR⟩ => hop RL RR, fun i _ ⟨RL⟩ _ ⟨RR⟩ => hop RL RR, ?_⟩
  have hparts : ∀ i ∈ finRange n, ((left i).filter fun l => (right i).any (partner l) = keep).Perm
      ((ls.filter fun l => worker l = i).filter fun l => rs.any (partner l) = keep) := by
    intro i _
    refine ((hleft i).filter _).trans (.of_eq (filter_congr fun l hl => ?_))
    have hworker := of_decide_eq_true (mem_filter.mp hl).2
    rw [(hright i).any_eq, any_filter]
    congr 3
    exact funext fun r =>
      Bool.and_eq_right_iff_imp.mpr fun h => decide_eq_true ((hpartner l r h).symm.trans hworker)
  refine (Perm.flatMap_left _ hparts).trans ?_
  rw [← filter_flatMap]
  exact (perm_flatMap_workers worker ls).filter _

end Partners

variable {A : Type}

/-- The worker that an exchange sends a tuple to; equal keys go to the same one. -/
structure KeyHash (A : Type) (n : ℕ) where
  worker : List (Field A) → Fin n
  sameKey : ∀ l r, sameKey l r → worker l = worker r

/-- The worker behind `PartitionOperator` for a first field of type `int` or `long`.  Fields of the
    other types are not partitioned by their values; they get one worker here. -/
def partitionWorker (assertions : Bool) (seed : BitVec 64) (t : List (Field A)) : Fin (n + 1) :=
  let id := match t.head? with
    | some (.atom (.int k)) => (partitionId assertions seed (n + 1) ⟨.int k, 0, 0⟩).getD 0
    | some (.atom (.long k)) => (partitionId assertions seed (n + 1) ⟨.long k, 0, 0⟩).getD 0
    | _ => 0
  ⟨id % (n + 1), Nat.mod_lt _ n.succ_pos⟩

/-- An exchange with `PartitionOperator`. -/
def partitionHash (assertions : Bool) (seed : BitVec 64) : KeyHash A (n + 1) where
  worker := partitionWorker assertions seed
  sameKey l r h := by
    cases l with
    | nil => cases r with
      | nil => rfl
      | cons b r => cases h
    | cons a l => cases r with
      | nil => cases h
      | cons b r =>
        obtain ⟨x, y, rfl, rfl, hxy⟩ := Field.beq_iff.mp (Bool.and_eq_true_iff.mp h).1
        change Atom.beq x y = true at hxy
        cases x <;> cases y <;> simp_all [Atom.beq, partitionWorker]

theorem sameKey_of_take {k : ℕ} {l r : List (Field A)} (h : l.take (k + 1) == r.take (k + 1)) : sameKey l r := by
  cases l <;> cases r <;> simp_all [sameKey, keyTuple, splitTupleParameter]

/-- **Joins on workers.**  The exchanges in front of a join bring equal keys to one worker; the workers then return
    together what the join returns for the whole inputs. -/
theorem joins_distribute (h : KeyHash A n) (k : ℕ) (function : List (Field A) → List (Field A) → Bool) :
    Distributes (fieldJoin (k + 1)) h.worker ∧ Distributes fieldSemiJoin h.worker ∧
      Distributes fieldAntiJoin h.worker ∧ Distributes (fieldAntiJoinPredicated function) h.worker := by
  refine ⟨?_, distributes_filter sameKey h.sameKey true (keySetJoin_firstDrain true),
    distributes_filter sameKey h.sameKey false (keySetJoin_firstDrain false), ?_⟩
  · refine distributes_pairs (fun l r => l.take (k + 1) == r.take (k + 1))
      (fun l r hkey => h.sameKey l r (sameKey_of_take hkey))
      (fun l r => r.take (k + 1) ++ l.drop (k + 1) ++ r.drop (k + 1)) fun {_ _ ls rs} RL RR => ?_
    show Returns _ (equiJoin (k + 1) ls rs)
    rw [← joinRows_eq_equiJoin]
    exact join_firstDrain _ _ RL RR
  · refine distributes_filter (fun l r => sameKey l r && function l (withKeyOf l r))
      (fun l r hkey => h.sameKey l r (Bool.and_eq_true_iff.mp hkey).1) false fun RL RR => ?_
    simp only [Bool.decide_eq_false]
    exact antiJoinPredicated_firstDrain function RL RR

theorem joins_distribute_partitionHash :
    Distributes (fieldJoin 1) (partitionHash (A := Unit) (n := 3) true 0).worker ∧
      Distributes fieldSemiJoin (partitionHash (A := Unit) (n := 3) true 0).worker :=
  have h := joins_distribute (partitionHash (A := Unit) (n := 3) true 0) 0 fun _ _ => true
  ⟨h.1, h.2.1⟩

end Joins

end Jitq.Operators

import Jitq.Dag.Dag
import Jitq.Operators.Reopen

namespace Jitq

open Operators HashTable List

/-! # Operators of a plan and the tuples they emit

`Operator.Emits` relates the sequences of tuples that reach the input ports of an operator to the
sequence that it emits.  It is a relation because the iteration order of a hash table is any order, and
because the operators that no rule of the optimizer looks into may do anything (`other`).

A valuation of a plan is a choice of a sequence for each operator that fits all these relations: one
possible execution on some input data. -/

variable {α : Type}

/-- The operators that the passes over plans tell apart. -/
inductive Operator (α : Type)
  | cartesian
  | columnScan (addIndex : Bool)
  | rowScan (addIndex : Bool)
  | filter (function : Tuple α → Bool)
  | join (numKeys : ℕ)
  | map (function : Tuple α → Tuple α)
  | range
  | reduceByKey (function : Tuple α → Tuple α → Tuple α)
  | reduceByKeyGrouped (function : Tuple α → Tuple α → Tuple α)
  | other (ports : ℕ) (emits : List (List (Tuple α)) → List (Tuple α) → Prop)

/-- The number of input ports. -/
def Operator.numInPorts : Operator α → ℕ
  | cartesian | join _ => 2
  | columnScan _ | rowScan _ | filter _ | map _ | range | reduceByKey _ | reduceByKeyGrouped _ => 1
  | other ports _ => ports

/-! ### Column scans -/

/-- The field of a column at an index into its data. -/
def columnField (i : ℕ) : Value α → Option (Value α)
  | .array pre rows post => ((pre ++ rows ++ post)[i]?).bind head?
  | _ => none

/-- The row of a `ColumnScanOperator` at an index: the field of each column there, all columns being
    read at the index into the first. -/
def columnLookup (addIndex : Bool) (t : Tuple α) (i : ℕ) : Option (Tuple α) :=
  (t.mapM (columnField i)).map fun row => if addIndex then .long i :: row else row

/-- The rows of all inputs of a column scan, one input after the other; offset and shape are those of
    the first column. -/
def ColumnScanRows (addIndex : Bool) (xs out : List (Tuple α)) : Prop :=
  ∃ rows : Tuple α → List (Tuple α), (∀ t ∈ xs, ScanRows rowOffset rowShape (columnLookup addIndex) t (rows t)) ∧
      out = xs.flatMap rows

/-! ### Executions -/

section Emits

variable [BEq α]

/-- The tuples of a `JoinOperator`. -/
def joinTuples (numKeys : ℕ) (ls rs : List (Tuple α)) : List (Tuple α) :=
  joinRows (splitTupleParameter numKeys) (splitTupleParameter numKeys)
    (fun key lv rv => key ++ lv ++ rv) ls rs

/-- The tuples of a `ReduceByKeyOperator`. -/
def reduceTuples (order : IterationOrder (Value α)) (function : Tuple α → Tuple α → Tuple α)
    (xs : List (Tuple α)) : List (Tuple α) :=
  reduceByKeyRows order splitTuple function (fun kv => kv.1 :: kv.2) xs

/-- The tuples of a `ReduceByKeyGroupedOperator`. -/
def reduceGroupedTuples (function : Tuple α → Tuple α → Tuple α) (xs : List (Tuple α)) :
    List (Tuple α) :=
  (reduceByKeyGroupedRows Tuple.v0 List.tail function xs).map fun kv => kv.1 :: kv.2

variable [LT α] [Arith α]

/-- The sequences that an operator can emit for the sequences at its ports. -/
def Operator.Emits : Operator α → List (List (Tuple α)) → List (Tuple α) → Prop
  | cartesian, [ls, rs], out => out = cartesianRows (· ++ ·) ls rs
  | columnScan addIndex, [xs], out => ColumnScanRows addIndex xs out
  | rowScan addIndex, [xs], out => out = xs.flatMap (scannedRows addIndex)
  | filter function, [xs], out => out = xs.filter function
  | join numKeys, [ls, rs], out => out = joinTuples numKeys ls rs
  | map function, [xs], out => out = xs.map function
  | range, [xs], out => ∃ vs, RangeValues rangeBounds xs vs ∧ out = vs.map fun v => [v]
  | reduceByKey function, [xs], out => ∃ order, out = reduceTuples order function xs
  | reduceByKeyGrouped function, [xs], out => out = reduceGroupedTuples function xs
  | other _ emits, inputs, out => emits inputs out
  | _, _, _ => False

/-- The operators at the input ports. -/
def Dag.predecessors (dag : Dag (Operator α)) (v : ℕ) : Option (List ℕ) :=
  (range (dag.op v).numInPorts).mapM (dag.predecessorOn v)

/-- A possible execution of a plan: `rows v` is what `v` emits. -/
def Dag.Executes (dag : Dag (Operator α)) (rows : ℕ → List (Tuple α)) : Prop :=
  ∀ v ∈ dag.operators, ∃ us, dag.predecessors v = some us ∧ (dag.op v).Emits (us.map rows) (rows v)

end Emits

/-! ### Types -/

/-- What `ComputeOutputType` demands of the widths of the input tuples and of the output tuple. -/
def Operator.TypeChecks : Operator α → List ℕ → ℕ → Prop
  | cartesian, [l, r], w => w = l + r
  | columnScan addIndex, [n], w => 0 < n ∧ w = addIndex.toNat + n
  | rowScan addIndex, [n], w => n = 1 ∧ addIndex.toNat ≤ w
  | filter _, [n], w => w = n
  | join numKeys, [l, r], w => 1 ≤ numKeys ∧ numKeys ≤ l ∧ numKeys ≤ r ∧ w = l + (r - numKeys)
  | map _, [_], _ => True
  | range, [n], w => n = 3 ∧ w = 1
  | reduceByKey _, [n], w => 0 < n ∧ w = n
  | reduceByKeyGrouped _, [n], w => 0 < n ∧ w = n
  | other _ _, _, _ => True
  | _, _, _ => False

/-- A plan that has passed `verify` and `type_check`: each operator has one flow at each of its ports
    and no other, from operators of the plan, and its width is the one that follows from the widths of
    its inputs. -/
structure Dag.Checked (dag : Dag (Operator α)) (width : ℕ → ℕ) : Prop where
  nodup : dag.operators.Nodup
  inDegree : ∀ v ∈ dag.operators, dag.inDegree v = (dag.op v).numInPorts
  predecessors : ∀ v ∈ dag.operators, ∃ us, dag.predecessors v = some us ∧
    (∀ u ∈ us, u ∈ dag.operators) ∧ (dag.op v).TypeChecks (us.map width) (width v)

variable {dag : Dag (Operator α)}

theorem Dag.Checked.of_predecessors {width : ℕ → ℕ} (h : dag.Checked width) {v : ℕ}
    (hv : v ∈ dag.operators) {us : List ℕ} (hus : dag.predecessors v = some us) :
    (∀ u ∈ us, u ∈ dag.operators) ∧ (dag.op v).TypeChecks (us.map width) (width v) := by
  obtain ⟨us', hus', hins⟩ := h.predecessors v hv
  obtain rfl := Option.some.inj (hus.symm.trans hus')
  exact hins

/-! ### Operators with one and with two inputs -/

theorem Dag.predecessor_eq_of_inDegree {Op : Type} {dag : Dag Op} {v u : ℕ}
    (hdeg : dag.inDegree v = 1) (h : dag.predecessorOn v 0 = some u) : dag.predecessor v = some u := by
  obtain ⟨f, hf⟩ := length_eq_one_iff.mp hdeg
  obtain ⟨g, hg, hsrc⟩ := Option.map_eq_some_iff.mp h
  obtain ⟨hflow, htgt, -⟩ := Dag.mem_of_inFlowOn hg
  have hmem : g ∈ dag.inFlows v := Dag.mem_inFlows.mpr ⟨hflow, htgt⟩
  rw [hf, mem_singleton] at hmem
  rw [Dag.predecessor, Dag.inFlow, hf, ← hsrc, hmem]
  rfl

theorem Dag.predecessors_one {v : ℕ} {us : List ℕ} (h : dag.predecessors v = some us)
    (hports : (dag.op v).numInPorts = 1) : ∃ u, us = [u] ∧ dag.predecessorOn v 0 = some u := by
  rw [Dag.predecessors, hports] at h
  cases hu : dag.predecessorOn v 0 with
  | none => simp [range_succ, hu] at h
  | some u => exact ⟨u, by simpa [range_succ, hu] using h.symm, rfl⟩

theorem Dag.predecessors_two {v : ℕ} {us : List ℕ} (h : dag.predecessors v = some us)
    (hports : (dag.op v).numInPorts = 2) :
    ∃ l r, us = [l, r] ∧ dag.predecessorOn v 0 = some l ∧ dag.predecessorOn v 1 = some r := by
  rw [Dag.predecessors, hports] at h
  cases hl : dag.predecessorOn v 0 with
  | none => simp [range_succ, hl] at h
  | some l =>
    cases hr : dag.predecessorOn v 1 with
    | none => simp [range_succ, hl, hr] at h
    | some r => exact ⟨l, r, by simpa [range_succ, hl, hr] using h.symm, rfl, rfl⟩

end Jitq

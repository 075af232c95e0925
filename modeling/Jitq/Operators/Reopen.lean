import Jitq.Data.Value
import Jitq.Operators.Blocking
import Jitq.Operators.Grouping
import Jitq.Operators.Joins

namespace Jitq.Operators

open Fuel Pull HashTable List

/-! # Trees of pull operators and the re-open contract

A `Plan` is a tree of generated operators on tuples.  `Plan.iter` is the iterator that the generated
code instantiates for it, `Plan.rows` the list of tuples that it is meant to return.

The contract: open, any number of `next` calls, close, open again and drain returns what the first
open and drain returned — which `CartesianOperator` relies on for its left input.  It does not hold
for every operator.  `Plan.Clean` says for which inputs each operator honours it, and
`everywhere_reopens_iff` that a tree and all its sub-trees honour it exactly under that condition. -/

variable {α : Type}

/-- What the generated code leaves to its libraries: `std::sort` on the first field, the iteration
    order of hash tables, `MurmurHash2` of a field for the partitioning, and the conversion of an
    atomic value to `long` and back, for the keys of a group-by. -/
structure Library (α : Type) [LT α] where
  sort : StdSort (Tuple.v0 (α := α))
  order : IterationOrder (Value α)
  hash : Value α → ℕ
  viaLong : α → α

/-- A tree of pull operators over leaves that return the same tuples on each open. -/
inductive Plan (α : Type)
  | leaf (xs : List (Tuple α))
  | map (function : Tuple α → Tuple α) (upstream : Plan α)
  | filter (function : Tuple α → Bool) (upstream : Plan α)
  | rowScan (addIndex : Bool) (upstream : Plan α)
  | rangeSource (upstream : Plan α)
  | zip (n : ℕ) (upstreams : Fin n → Plan α)
  | cartesian (upstream1 upstream2 : Plan α)
  | sort (upstream : Plan α)
  | topK (numElements : ℤ) (upstream : Plan α)
  | reduce (function : Tuple α → Tuple α → Tuple α) (upstream : Plan α)
  | reduceByKey (function : Tuple α → Tuple α → Tuple α) (upstream : Plan α)
  | reduceByIndex (lo hi : ℤ) (function : Tuple α → Tuple α → Tuple α) (upstream : Plan α)
  | reduceByKeyGrouped (function : Tuple α → Tuple α → Tuple α) (upstream : Plan α)
  | groupBy (upstream : Plan α)
  | partition (mainUpstream confUpstream : Plan α)
  | join (numKeys : ℕ) (leftUpstream rightUpstream : Plan α)
  | antiJoin (leftUpstream rightUpstream : Plan α)
  | semiJoin (leftUpstream rightUpstream : Plan α)

/-! ### The fields that the operators read -/

variable (t : Tuple α)

/-- `SplitTuple`: the first field is the key, the others are the value. -/
def splitTuple : Value α × Tuple α := (t.v0, t.tail)

/-- The key of a reduction by index is a `long`. -/
def splitIndex : ℤ × Tuple α := (t.v0.asLong, t.tail)

/-- The bounds `v0`, `v1` and the step `v2` of a range, which are of one type. -/
def rangeBounds : Value α × Value α × Value α :=
  (t.getD 0 default, t.getD 1 default, t.getD 2 default)

/-- `offsets[0]` of the array in the first field. -/
def rowOffset : ℕ := match t.v0 with
  | .array pre _ _ => pre.length
  | _ => 0

/-- `shape[0]` of the array in the first field. -/
def rowShape : ℕ := match t.v0 with
  | .array _ rows _ => rows.length
  | _ => 0

/-- The rows of the array in the first field. -/
def arrayRows : List (Tuple α) := match t.v0 with
  | .array _ rows _ => rows
  | _ => []

/-- `RowScanOperator::BuildResultTuple`, for one index into the data of the first field. -/
def rowLookup (addIndex : Bool) (t : Tuple α) (i : ℕ) : Option (Tuple α) := match t.v0 with
  | .array pre rows post => ((pre ++ rows ++ post)[i]?).map fun row => if addIndex then .long i :: row else row
  | _ => none

/-- The tuples that a row scan returns for one input: the index is the position in the data. -/
def scannedRows (addIndex : Bool) (t : Tuple α) : List (Tuple α) :=
  (arrayRows t).zipIdx.map fun (row, i) =>
    if addIndex then .long ((rowOffset t + i : ℕ) : ℤ) :: row else row

/-- `GroupByOperator` reads the first two fields.  Its table has keys of type `long`, so the first
    field is converted on its way into the table and out of it. -/
def groupFields (viaLong : α → α) (t : Tuple α) : Value α × Value α :=
  (match t.v0 with
    | .atom a => .atom (viaLong a)
    | v => v, t.getD 1 default)

/-- An array that owns its data. -/
def ownArray (rows : List (Tuple α)) : Value α := .array [] rows []

/-- The result of a group-by for one key. -/
def groupTuple (g : Value α × List (Value α)) : Tuple α := [g.1, ownArray (g.2.map fun v => [v])]

/-- The result of a partitioning for one block. -/
def partitionTuple (p : ℕ × List (Tuple α)) : Tuple α := [.long p.1, ownArray p.2]

/-- The fanout is the first field of the configuration tuple. -/
def fanoutOf : ℕ := t.v0.asLong.toNat

/-- The blocks of a partitioning, if the fanout is usable. -/
def partitionRows (hash : Tuple α → ℕ) (fanout : ℕ) (xs : List (Tuple α)) : Option (List (ℕ × List (Tuple α))) :=
  (xs.foldlM (partitionInsert hash fanout) ([], replicate fanout [])).map partitions

/-- A row scan finds all the rows of an array window. -/
theorem scanRows_scannedRows (addIndex : Bool) (t : Tuple α) :
    ScanRows rowOffset rowShape (rowLookup addIndex) t (scannedRows addIndex t) := by
  rw [ScanRows, forall₂_iff_get]
  cases hv : t.v0 with
  | long n => simp [rowShape, scannedRows, arrayRows, hv]
  | atom a => simp [rowShape, scannedRows, arrayRows, hv]
  | array pre rows post =>
    refine ⟨by simp [rowShape, scannedRows, arrayRows, hv], fun i h1 h2 => ?_⟩
    have hi : i < rows.length := by simpa [rowShape, hv] using h1
    have hget : (pre ++ (rows ++ post))[pre.length + i]? = some rows[i] := by
      rw [getElem?_append_right (by omega), Nat.add_sub_cancel_left, getElem?_append_left hi, getElem?_eq_getElem hi]
    simpa [rowLookup, rowOffset, scannedRows, arrayRows, hv] using ⟨rows[i], hget, rfl⟩

theorem partitionBlocks_partitionRows (hash : Tuple α → ℕ) (fanout : ℕ) (xs : List (Tuple α))
    (h : fanout = 0 → xs = []) :
    PartitionBlocks hash fanout xs ((partitionRows hash fanout xs).getD []) := by
  have hsome : ∀ b, ∃ b', xs.foldlM (partitionInsert hash fanout) b = some b' := by
    by_cases hfan : fanout = 0
    · rw [h hfan]
      exact fun b => ⟨b, rfl⟩
    · clear h
      induction xs with
      | nil => exact fun b => ⟨b, rfl⟩
      | cons x xs ih =>
        intro b
        simp only [foldlM_cons, partitionInsert, if_neg hfan]
        split <;> exact ih _
  obtain ⟨b, hb⟩ := hsome ([], replicate fanout [])
  exact ⟨b, hb, by simp [partitionRows, hb]⟩

section Semantics

variable [LT α] [DecidableLT α] [BEq α] [Arith α] (L : Library α)

/-- The iterator that the generated code builds for a tree. -/
def Plan.iter : Plan α → Iter (Tuple α)
  | leaf xs => Iter.ofList xs
  | map f u => mapOperator f u.iter
  | filter f u => filterOperator f u.iter
  | rowScan addIndex u => scanOperator rowOffset rowShape (rowLookup addIndex) u.iter
  | rangeSource u => rangeSourceOperator rangeBounds (fun v => [v]) u.iter
  | zip _ us => zipOperator (fun i => (us i).iter) fun ts => (ofFn ts).flatten
  | cartesian u₁ u₂ => cartesianOperator (· ++ ·) u₁.iter u₂.iter
  | sort u => sortOperator L.sort u.iter
  | topK k u => topKOperator Tuple.v0 k u.iter
  | reduce f u => reduceOperator f u.iter
  | reduceByKey f u => reduceByKeyOperator L.order splitTuple f (fun kv => kv.1 :: kv.2) u.iter
  | reduceByIndex lo hi f u =>
    reduceByIndexOperator lo hi splitIndex f (fun kv => .long kv.1 :: kv.2) u.iter
  | reduceByKeyGrouped f u =>
    reduceByKeyGroupedOperator Tuple.v0 List.tail f (fun kv => kv.1 :: kv.2) u.iter
  | groupBy u => groupByOperator L.order (groupFields L.viaLong) groupTuple u.iter
  | partition u c => partitionOperator (fun t => L.hash t.v0) fanoutOf partitionTuple u.iter c.iter
  | join k l r => joinOperator (splitTupleParameter k) (splitTupleParameter k)
      (fun key lv rv => key ++ lv ++ rv) l.iter r.iter
  | antiJoin l r => antiJoinOperator Tuple.v0 Tuple.v0 l.iter r.iter
  | semiJoin l r => semiJoinOperator Tuple.v0 Tuple.v0 l.iter r.iter

/-- The range that a tuple describes comes to an end. -/
def RangeEndsFor (t : Tuple α) : Prop :=
  ∃ vs, RangeRun (rangeBounds t).2.1 (rangeBounds t).2.2 (rangeBounds t).1 vs

open Classical in
/-- The values of the range that a tuple describes. -/
noncomputable def rangeRows (t : Tuple α) : List (Value α) :=
  if h : RangeEndsFor t then h.choose else []

/-- The tuples that a tree returns. -/
noncomputable def Plan.rows : Plan α → List (Tuple α)
  | leaf xs => xs
  | map f u => u.rows.map f
  | filter f u => u.rows.filter f
  | rowScan addIndex u => u.rows.flatMap (scannedRows addIndex)
  | rangeSource u => match u.rows with
    | [] => []
    | t :: _ => (rangeRows t).map fun v => [v]
  | zip 0 _ => []
  | zip (_ + 1) us => (zipRows fun i => (us i).rows).map fun ts => (ofFn ts).flatten
  | cartesian u₁ u₂ => cartesianRows (· ++ ·) u₁.rows u₂.rows
  | sort u => L.sort.sort u.rows
  | topK k u => topKContainer Tuple.v0 k.toNat [] u.rows
  | reduce f u => reduceRows f u.rows
  | reduceByKey f u => reduceByKeyRows L.order splitTuple f (fun kv => kv.1 :: kv.2) u.rows
  | reduceByIndex lo hi f u =>
    reduceByIndexRows lo hi splitIndex f (fun kv => .long kv.1 :: kv.2) u.rows
  | reduceByKeyGrouped f u => (reduceByKeyGroupedRows Tuple.v0 List.tail f u.rows).map fun kv => kv.1 :: kv.2
  | groupBy u => groupByRows L.order (groupFields L.viaLong) groupTuple u.rows
  | partition u c => match c.rows with
    | [] => []
    | t :: _ => ((partitionRows (fun t => L.hash t.v0) (fanoutOf t) u.rows).getD []).map
        partitionTuple
  | join k l r => joinRows (splitTupleParameter k) (splitTupleParameter k)
      (fun key lv rv => key ++ lv ++ rv) l.rows r.rows
  | antiJoin l r => keySetJoinRows false Tuple.v0 Tuple.v0 l.rows r.rows
  | semiJoin l r => keySetJoinRows true Tuple.v0 Tuple.v0 l.rows r.rows

/-- The inputs of the operator at the root. -/
def Plan.inputs : Plan α → List (Plan α)
  | leaf _ => []
  | map _ u | filter _ u | rowScan _ u | rangeSource u | sort u | topK _ u | reduce _ u
  | reduceByKey _ u | reduceByIndex _ _ _ u | reduceByKeyGrouped _ u | groupBy u => [u]
  | zip _ us => ofFn us
  | cartesian u₁ u₂ | partition u₁ u₂ | join _ u₁ u₂ | antiJoin u₁ u₂ | semiJoin u₁ u₂ => [u₁, u₂]

/-- A property of a tree and of all its sub-trees. -/
inductive Plan.Everywhere (P : Plan α → Prop) : Plan α → Prop
  | node {p} : P p → (∀ q ∈ p.inputs, Everywhere P q) → Everywhere P p

/-- The operator at the root comes to an end on its inputs: a range reaches its end, a zip has an input, the keys of a reduction by index are within its bounds (`at` throws), and a
    partitioning has a fanout. -/
def Plan.Ends : Plan α → Prop
  | rangeSource u => ∀ t ∈ (u.rows L).head?, RangeEndsFor t
  | zip n _ => 0 < n
  | reduceByIndex lo hi _ u => InBounds lo hi splitIndex (u.rows L)
  | partition u c => ∃ t ts, c.rows L = t :: ts ∧ (fanoutOf t = 0 → u.rows L = [])
  | _ => True

/-- The operator at the root starts over when it is opened again.  The containers of a sort and of a
    top-k must have stayed empty, the aggregates of a reduction by key or by index must not change
    when the input is folded into them once more (and a key must be equal to itself, or it gets
    another entry), a group-by must have had no input, and no right tuple of a join may have two
    matches. -/
def Plan.StartsOver : Plan α → Prop
  | sort u => u.rows L = []
  | topK k u => k ≤ 0 ∨ u.rows L = []
  | reduceByKey f u => ReducesAgain splitTuple f (u.rows L)
  | reduceByIndex _ _ f u => ∀ k, Refolds f (valuesOf k ((u.rows L).map splitIndex))
  | groupBy u => u.rows L = []
  | join k l r => ∀ t ∈ r.rows L,
      (joinMatches (splitTupleParameter k) (splitTupleParameter k) (l.rows L) t).length ≤ 1
  | _ => True

/-! ### One operator on inputs that replay -/

variable {L} {p : Plan α} [Comparable α]

/-- What an operator keeps of a run is harmless under its condition: it replays on inputs that do. -/
theorem replay_of_startsOver (hends : p.Ends L) (hover : p.StartsOver L)
    (h : ∀ q ∈ p.inputs, Nonempty (Replay (q.iter L) (q.rows L))) :
    Nonempty (Replay (p.iter L) (p.rows L)) := by
  cases p with
  | leaf xs => exact ⟨.ofList xs⟩
  | map f u =>
    obtain ⟨R⟩ := h u (by simp [Plan.inputs])
    exact ⟨mapReplay R f⟩
  | filter f u =>
    obtain ⟨R⟩ := h u (by simp [Plan.inputs])
    exact ⟨filterReplay R f⟩
  | rowScan addIndex u =>
    obtain ⟨R⟩ := h u (by simp [Plan.inputs])
    exact ⟨scanReplay R (scannedRows addIndex) fun t _ => scanRows_scannedRows addIndex t⟩
  | rangeSource u =>
    obtain ⟨R⟩ := h u (by simp [Plan.inputs])
    cases hrows : u.rows L with
    | nil =>
      rw [hrows] at R
      rw [Plan.rows, hrows]
      have hnone : RangeValues rangeBounds ([] : List (Tuple α)) [] := rfl
      exact ⟨rangeReplay Comparable.lt_irrefl R hnone _⟩
    | cons t ts =>
      have hstops : RangeEndsFor t := hends t (by simp [hrows])
      have hrun : RangeValues rangeBounds (t :: ts) (rangeRows t) := by
        rw [rangeRows, dif_pos hstops]
        exact hstops.choose_spec
      rw [hrows] at R
      rw [Plan.rows, hrows]
      exact ⟨rangeReplay Comparable.lt_irrefl R hrun _⟩
  | zip n us =>
    obtain ⟨n, rfl⟩ : ∃ m, n = m + 1 := ⟨n - 1, by have : 0 < n := hends; omega⟩
    have hR : ∀ i, Nonempty (Replay ((us i).iter L) ((us i).rows L)) := fun i =>
      h (us i) (mem_ofFn.mpr ⟨i, rfl⟩)
    exact ⟨zipReplay (fun i => (hR i).some) _⟩
  | cartesian u1 u2 =>
    obtain ⟨R1⟩ := h u1 (by simp [Plan.inputs])
    obtain ⟨R2⟩ := h u2 (by simp [Plan.inputs])
    exact ⟨cartesianReplay _ R1 R2⟩
  | sort u =>
    obtain ⟨R⟩ := h u (by simp [Plan.inputs])
    have hnil : u.rows L = [] := hover
    rw [Plan.rows, hnil]
    exact ⟨sortReplay L.sort (hnil ▸ R)⟩
  | topK k u =>
    obtain ⟨R⟩ := h u (by simp [Plan.inputs])
    exact ⟨topKReplay Tuple.v0 R k hover⟩
  | reduce f u =>
    obtain ⟨R⟩ := h u (by simp [Plan.inputs])
    exact ⟨reduceReplay R f⟩
  | reduceByKey f u =>
    obtain ⟨R⟩ := h u (by simp [Plan.inputs])
    exact ⟨reduceByKeyReplay L.order splitTuple f _ R hover⟩
  | reduceByIndex lo hi f u =>
    obtain ⟨R⟩ := h u (by simp [Plan.inputs])
    exact ⟨reduceByIndexReplay f _ R hends hover⟩
  | reduceByKeyGrouped f u =>
    obtain ⟨R⟩ := h u (by simp [Plan.inputs])
    exact ⟨reduceByKeyGroupedReplay Tuple.v0 List.tail f _ R⟩
  | groupBy u =>
    obtain ⟨R⟩ := h u (by simp [Plan.inputs])
    have hnil : u.rows L = [] := hover
    rw [Plan.rows, hnil]
    exact ⟨groupByReplay L.order (groupFields L.viaLong) groupTuple (hnil ▸ R)⟩
  | partition u c =>
    obtain ⟨R⟩ := h u (by simp [Plan.inputs])
    obtain ⟨Rc⟩ := h c (by simp [Plan.inputs])
    obtain ⟨t, ts, hc, hfan⟩ := hends
    rw [hc] at Rc
    have hblocks := partitionBlocks_partitionRows (fun t => L.hash t.v0) (fanoutOf t) (u.rows L) hfan
    rw [Plan.rows, hc]
    exact ⟨partitionReplay _ fanoutOf partitionTuple R Rc hblocks⟩
  | join k l r =>
    obtain ⟨RL⟩ := h l (by simp [Plan.inputs])
    obtain ⟨RR⟩ := h r (by simp [Plan.inputs])
    exact ⟨joinReplay _ _ RL RR hover⟩
  | antiJoin l r | semiJoin l r =>
    obtain ⟨RL⟩ := h l (by simp [Plan.inputs])
    obtain ⟨RR⟩ := h r (by simp [Plan.inputs])
    exact ⟨keySetJoinReplay RL RR⟩

/-- Conversely, an operator that honours the contract on inputs that replay meets its condition. -/
theorem startsOver_of_reopens (hends : p.Ends L) (h : ∀ q ∈ p.inputs, Nonempty (Replay (q.iter L) (q.rows L)))
    (hre : Reopens (p.iter L) (p.rows L)) : p.StartsOver L := by
  have hcons : Function.Injective fun kv : Value α × Tuple α => kv.1 :: kv.2 :=
    fun a b hab => Prod.ext (List.cons.inj hab).1 (List.cons.inj hab).2
  have hcons' : Function.Injective fun kv : ℤ × Tuple α => Value.long kv.1 :: kv.2 :=
    fun a b hab => Prod.ext (Value.long.inj (List.cons.inj hab).1) (List.cons.inj hab).2
  cases p with
  | sort u =>
    obtain ⟨R⟩ := h u (by simp [Plan.inputs])
    exact sort_input_eq_nil L.sort R hre
  | topK k u =>
    obtain ⟨R⟩ := h u (by simp [Plan.inputs])
    exact topK_keeps_nothing Tuple.v0 R k hre
  | reduceByKey f u =>
    obtain ⟨R⟩ := h u (by simp [Plan.inputs])
    exact reduceByKey_reducesAgain L.order splitTuple f hcons R hre
  | reduceByIndex lo hi f u =>
    obtain ⟨R⟩ := h u (by simp [Plan.inputs])
    exact reduceByIndex_refolds f hcons' R hends hre
  | groupBy u =>
    obtain ⟨R⟩ := h u (by simp [Plan.inputs])
    exact groupBy_input_eq_nil L.order (groupFields L.viaLong) groupTuple R hre
  | join k l r =>
    obtain ⟨RL⟩ := h l (by simp [Plan.inputs])
    obtain ⟨RR⟩ := h r (by simp [Plan.inputs])
    exact join_matches_le_one _ _ hre RL RR
  | leaf | map | filter | rowScan | rangeSource | zip | cartesian | reduce | reduceByKeyGrouped
  | partition | antiJoin | semiJoin => trivial

/-! ### Trees -/

omit [LT α] [DecidableLT α] [BEq α] [Arith α] [Comparable α] in
theorem Plan.Everywhere.root {P : Plan α → Prop} (h : p.Everywhere P) : P p := by
  cases h with
  | node hp _ => exact hp

omit [LT α] [DecidableLT α] [BEq α] [Arith α] [Comparable α] in
theorem Plan.Everywhere.inputs {P : Plan α → Prop} (h : p.Everywhere P) : ∀ q ∈ p.inputs, q.Everywhere P := by
  cases h with
  | node _ hq => exact hq

/-- A tree whose operators all start over replays. -/
theorem replay_of_everywhere_startsOver (hends : p.Everywhere (Plan.Ends L))
    (hover : p.Everywhere (Plan.StartsOver L)) : Nonempty (Replay (p.iter L) (p.rows L)) := by
  induction hends with
  | node hp _ ih =>
    exact replay_of_startsOver hp hover.root fun q hq => ih q hq (hover.inputs q hq)

/-- **The re-open contract, exactly.**  A tree of operators and all its sub-trees return the same
    tuples after every re-open — and return, in particular, for a Cartesian product each left tuple
    for each right tuple — if and only if every operator in it starts over. -/
theorem everywhere_reopens_iff (L : Library α) (p : Plan α) (hends : p.Everywhere (Plan.Ends L)) :
    p.Everywhere (fun q => Reopens (q.iter L) (q.rows L)) ↔ p.Everywhere (Plan.StartsOver L) := by
  induction hends with
  | @node p hp hq ih =>
    constructor
    · intro h
      have hins := fun q hmem => (ih q hmem).mp (h.inputs q hmem)
      refine .node (startsOver_of_reopens hp (fun q hmem => ?_) h.root) hins
      exact replay_of_everywhere_startsOver (hq q hmem) (hins q hmem)
    · intro h
      obtain ⟨R⟩ := replay_of_everywhere_startsOver (.node hp hq) h
      exact .node R.reopens fun q hmem => (ih q hmem).mpr (h.inputs q hmem)

end Semantics

/-! ### A library, and two trees on it -/

section Reference

variable [LinearOrder α]

/-- A total preorder on fields that agrees with `<` on fields of one type. -/
def sortsBefore : Value α → Value α → Prop
  | .long n, .long m => n ≤ m
  | .long _, _ => True
  | _, .long _ => False
  | .atom a, .atom b => a ≤ b
  | .atom _, .array .. => True
  | .array .., .atom _ => False
  | .array .., .array .. => True

instance : DecidableRel (sortsBefore (α := α))
  | .long n, .long m => inferInstanceAs (Decidable (n ≤ m))
  | .long _, .atom _ => .isTrue trivial
  | .long _, .array .. => .isTrue trivial
  | .atom _, .long _ => .isFalse id
  | .atom a, .atom b => inferInstanceAs (Decidable (a ≤ b))
  | .atom _, .array .. => .isTrue trivial
  | .array .., .long _ => .isFalse id
  | .array .., .atom _ => .isFalse id
  | .array .., .array .. => .isTrue trivial

theorem sortsBefore_total (x y : Value α) : sortsBefore x y ∨ sortsBefore y x := by
  cases x <;> cases y <;> simp [sortsBefore, le_total]

theorem sortsBefore_trans {x y z : Value α} (hxy : sortsBefore x y) (hyz : sortsBefore y z) : sortsBefore x z := by
  cases x <;> cases y <;> cases z <;> simp_all [sortsBefore]
  all_goals exact hxy.trans hyz

theorem not_lt_of_sortsBefore {x y : Value α} (h : sortsBefore x y) : ¬ y < x := by
  cases x <;> cases y
  case long.long n m => exact Value.long_lt_long.not.mpr (not_lt.mpr h)
  case atom.atom a b => exact Value.atom_lt_atom.not.mpr (not_lt.mpr h)
  all_goals exact id

/-- An implementation of the library functions: insertion sort, tables iterated in the order of
    insertion, a constant hash, and values that are `long`s already. -/
def referenceLibrary : Library α where
  sort :=
    { sort := insertionSort fun x y => sortsBefore x.v0 y.v0
      perm := perm_insertionSort _
      sorted := fun xs => by
        have : Std.Total fun x y : Tuple α => sortsBefore x.v0 y.v0 := ⟨fun x y => sortsBefore_total x.v0 y.v0⟩
        have : IsTrans (Tuple α) fun x y => sortsBefore x.v0 y.v0 := ⟨fun x y z => sortsBefore_trans⟩
        exact (pairwise_insertionSort _ xs).imp not_lt_of_sortsBefore }
  order := ⟨fun ks => range ks.length, fun _ => .refl _⟩
  hash _ := 0
  viaLong := id

end Reference

/-- A join compares its keys with the `==` of C++: the right key `0.0` matches `0.0` and `-0.0`. -/
example (L : Library Atom) : ¬ Plan.StartsOver L (.join 1
    (.leaf [[.atom (.double 0)], [.atom (.double (BitVec.cons true 0))]])
    (.leaf [[.atom (.double 0)]])) := by
  simp only [Plan.StartsOver, Plan.rows]
  decide

/-- The contract fails for a sort of one tuple: after a re-open it returns the tuple twice. -/
theorem sort_returns_twice :
    let p := (Plan.sort (.leaf [[.long 1]]) : Plan ℤ).iter referenceLibrary
    Returns p.firstDrain [[.long 1]] ∧ Returns (p.reopenDrain 0) [[.long 1], [.long 1]] := by
  have R := Replay.ofList ([[.long 1]] : List (Tuple ℤ))
  let std := (referenceLibrary (α := ℤ)).sort
  exact ⟨sort_firstDrain std R, materialize_reopenDrain R (sort_builds std R [])
    (sort_builds std R [[.long 1]])⟩

/-- A Cartesian product whose left input is a join without double matches: every tree above it may
    re-open the product and its inputs. -/
theorem everywhere_reopens_productOverJoin :
    let p : Plan ℤ := .cartesian
      (.join 1 (.leaf [[.long 1, .long 10], [.long 2, .long 20]]) (.leaf [[.long 2, .long 5]]))
      (.leaf [[.long 7], [.long 8]])
    p.Everywhere (Plan.Ends referenceLibrary) ∧
      p.Everywhere fun q => Reopens (q.iter referenceLibrary) (q.rows referenceLibrary) := by
  intro p
  have hleaf : ∀ (P : Plan ℤ → Prop) (xs : List (Tuple ℤ)), P (.leaf xs) →
      (Plan.leaf xs).Everywhere P := fun P xs hP => .node hP (by simp [Plan.inputs])
  have hends : p.Everywhere (Plan.Ends referenceLibrary) := by
    refine .node trivial fun q hq => ?_
    rcases mem_pair.mp hq with rfl | rfl
    · refine .node trivial fun q hq => ?_
      rcases mem_pair.mp hq with rfl | rfl <;> exact hleaf _ _ trivial
    · exact hleaf _ _ trivial
  refine ⟨hends, (everywhere_reopens_iff referenceLibrary p hends).mpr ?_⟩
  refine .node trivial fun q hq => ?_
  rcases mem_pair.mp hq with rfl | rfl
  · refine .node (by simp only [Plan.StartsOver, Plan.rows]; decide) fun q hq => ?_
    rcases mem_pair.mp hq with rfl | rfl <;> exact hleaf _ _ trivial
  · exact hleaf _ _ trivial

end Jitq.Operators

import Jitq.Dag.Operators
import Jitq.Lib.Runs
import Jitq.Lib.Partial
import Mathlib.Data.List.GetD
import Mathlib.Order.CompleteBooleanAlgebra
import Mathlib.Order.CompletePartialOrder

namespace Jitq.Optimize

open Operators Runs Function List Option

/-! # DetermineSortedness — which fields are unique, sorted or grouped

The pass visits the operators of a plan, each after its inputs, and marks fields of their output tuples:
`FL_UNIQUE` for pairwise distinct values, `FL_SORTED` for a non-decreasing sequence, `FL_GROUPED` for
adjacent equal values.

* `visit` — `DetermineSortednessVisitor`; an index that leaves a list of fields is `none`;
* `MarksAllowed` — when the marks that a visit sets are justified;
* `determineSortedness_sound` — then all marks hold in every execution of the plan. -/

/-! ### Fields and their properties -/

inductive FieldProperty
  | grouped
  | sorted
  | unique
  deriving DecidableEq

structure Field where
  attributeId : ℕ
  properties : Finset FieldProperty

namespace Field

def addProperty (property : FieldProperty) (field : Field) : Field :=
  { field with properties := insert property field.properties }

/-- `field->CopyProperties(other)`. -/
def copyProperties (field other : Field) : Field := { field with properties := field.properties ∪ other.properties }

def clearProperties (field : Field) : Field := { field with properties := ∅ }

/-- `field->properties().count(property) > 0`. -/
def has (property : FieldProperty) (field : Field) : Bool := property ∈ field.properties

end Field

/-! ### The pass -/

/-- `tuple->fields` of every operator. -/
abbrev Tuples := ℕ → List Field

/-- An update of `fields[i]`, which has to exist. -/
def updateField (i : ℕ) (update : Field → Field) (fields : List Field) : Option (List Field) :=
  if i < fields.length then some (fields.modify i update) else none

/-- A loop over the fields of an input from `start` on.  `effect` gives what to do to the output field at
    `target i`, which is looked up only then. -/
def forFields (input : List Field) (start : ℕ) (target : ℕ → ℕ)
    (effect : Field → Option (Field → Field)) (fields : List Field) : Option (List Field) :=
  (input.zipIdx.drop start).foldlM
    (fun fields (field, i) => match effect field with
      | some update => updateField (target i) update fields
      | none => some fields)
    fields

variable {α : Type}

/-- What a right field of a `Cartesian` does to its output field. -/
def cartesianEffect (right field : Field) : Field :=
  let field := if right.has .unique then field.addProperty .grouped else field
  if right.has .sorted then field.addProperty .sorted else field

/-- A mark for the output field of each unique input field. -/
def ifUnique (property : FieldProperty) (input : Field) : Option (Field → Field) :=
  if input.has .unique then some (Field.addProperty property) else none

/-- The visit of a `Join`.  The output field of a right field is computed as if there were one key. -/
def visitJoin (left right fields : List Field) : Option (List Field) := do
  let leftKey ← left[0]?
  let rightKey ← right[0]?
  if leftKey.has .unique && rightKey.has .unique then
    let fields ← forFields left 0 (fun i => i) (ifUnique .unique) fields
    forFields right 1 (fun i => i + left.length - 1) (ifUnique .unique) fields
  else if rightKey.has .unique then
    forFields right 1 (fun i => i + left.length - 1) (ifUnique .grouped) fields
  else
    some fields

/-- The visit of a scan. -/
def visitScan (addIndex : Bool) (fields : List Field) : Option (List Field) :=
  if addIndex then
    updateField 0 (fun field => (field.addProperty .unique).addProperty .sorted) fields
  else
    some fields

/-- The visit of a `Filter`. -/
def visitFilter (input fields : List Field) : Option (List Field) :=
  fields.zipIdx.mapM fun (field, i) => (input[i]?).map fun other => field.copyProperties other

/-- The visit of a `Map`: a field has the properties of the first input field with its id. -/
def visitMap (input fields : List Field) : List Field :=
  fields.map fun field =>
    match input.find? fun other => field.attributeId = other.attributeId with
    | some other => field.copyProperties other
    | none => field

variable (dag : Dag (Operator α))

/-- The fields of `v` after its visit by `DetermineSortednessVisitor`. -/
def visitFields (tuples : Tuples) (v : ℕ) : Option (List Field) :=
  match dag.op v with
  | .cartesian => do
    let left ← (dag.predecessorOn v 0).map tuples
    let right ← (dag.predecessorOn v 1).map tuples
    forFields right 0 (fun i => i + left.length) (fun field => some (cartesianEffect field)) (tuples v)
  | .columnScan addIndex => visitScan addIndex (tuples v)
  | .rowScan addIndex => visitScan addIndex (tuples v)
  | .filter _ => do
    let input ← (dag.predecessor v).map tuples
    visitFilter input (tuples v)
  | .join _ => do
    let left ← (dag.predecessorOn v 0).map tuples
    let right ← (dag.predecessorOn v 1).map tuples
    visitJoin left right (tuples v)
  | .map _ => do
    let input ← (dag.predecessor v).map tuples
    some (visitMap input (tuples v))
  | .range => some ((tuples v).map fun field => (field.addProperty .unique).addProperty .sorted)
  | .reduceByKey _ => updateField 0 (Field.addProperty .unique) (tuples v)
  | .reduceByKeyGrouped _ => do
    let input ← (dag.predecessor v).map tuples
    let key ← input[0]?
    updateField 0 (fun field => (field.copyProperties key).addProperty .unique) (tuples v)
  | .other _ _ => some (tuples v)

def visit (tuples : Tuples) (v : ℕ) : Option Tuples :=
  (visitFields dag tuples v).map (update tuples v)

/-- 'grouped' is implied by 'unique' or 'sorted'. -/
def implyGrouped (field : Field) : Field :=
  let field := if field.has .unique then field.addProperty .grouped else field
  if field.has .sorted then field.addProperty .grouped else field

/-- `DetermineSortedness::Run`. -/
def determineSortedness (order : List ℕ) (tuples : Tuples) : Option Tuples :=
  (order.foldlM (visit dag) fun v => (tuples v).map Field.clearProperties).map
    fun tuples v => (tuples v).map implyGrouped

/-! ### Fields of the emitted tuples -/

/-- The values of one field along a sequence of tuples. -/
def column (rows : List (Tuple α)) (i : ℕ) : List (Value α) := rows.map fun t => t.getD i default

variable {numKeys : ℕ}

section Columns

variable {ls rs xs : List (Tuple α)}

theorem column_zero_eq (rows : List (Tuple α)) : column rows 0 = rows.map Tuple.v0 :=
  map_congr_left fun t _ => by cases t <;> rfl

/-- A right field of a product: the right tuples come in order, each once for every left tuple. -/
theorem column_cartesian {width : ℕ} (hls : ∀ l ∈ ls, l.length = width) (i : ℕ) :
    column (cartesianRows (· ++ ·) ls rs) (i + width) =
      repeats (fun _ => ls.length) (fun r => r.getD i default) rs := by
  unfold column cartesianRows repeats
  rw [map_flatMap]
  refine congrArg (fun f => flatMap f rs) (funext fun r => ?_)
  rw [List.map_map, ← map_const']
  refine map_congr_left fun l hl => ?_
  show (l ++ r).getD (i + width) default = r.getD i default
  rw [getD_append_right _ _ _ _ (by rw [hls l hl]; omega), hls l hl, Nat.add_sub_cancel]

variable [BEq α]

/-- The left tuples that a right tuple matches. -/
def matchesOf (numKeys : ℕ) (ls : List (Tuple α)) (r : Tuple α) : List (Tuple α) :=
  ls.filter fun l => l.take numKeys == r.take numKeys

theorem joinTuples_eq (numKeys : ℕ) (ls rs : List (Tuple α)) : joinTuples numKeys ls rs =
    rs.flatMap fun r => (matchesOf numKeys ls r).map fun l =>
      r.take numKeys ++ l.drop numKeys ++ r.drop numKeys := by
  refine congrArg (fun f => flatMap f rs) (funext fun r => ?_)
  unfold joinRowsOf joinMatches HashTable.valuesOf matchesOf
  rw [List.filter_map, List.map_map, List.map_map]
  rfl

section Matches

variable {width numKeys i : ℕ} {l r : Tuple α} (h : l ∈ matchesOf numKeys ls r)

include h

theorem keys_of_mem_matchesOf :
    Forall₂ (fun a b => a == b) (l.take numKeys) (r.take numKeys) :=
  HashTable.beq_iff_forall₂.mp (mem_filter.mp h).2

/-- The fields of a key are equal. -/
theorem getD_beq_of_mem_matchesOf (hi : i < numKeys) (hlen : i < l.length) :
    l.getD i default == r.getD i default := by
  have hkeys := keys_of_mem_matchesOf h
  have hlt : i < (l.take numKeys).length := by
    rw [length_take]
    omega
  have hlt' : i < (r.take numKeys).length := hkeys.length_eq ▸ hlt
  have hget := hkeys.get hlt hlt'
  simp only [get_eq_getElem, getElem_take] at hget
  have hr : i < r.length := by
    rw [length_take] at hlt'
    omega
  rwa [getD_eq_getElem _ _ hlen, getD_eq_getElem _ _ hr]

/-- The key of the result has as many fields as there are keys. -/
theorem length_key_of_mem_matchesOf (hkeys : numKeys ≤ l.length) :
    (r.take numKeys).length = numKeys := by
  rw [← (keys_of_mem_matchesOf h).length_eq, length_take, Nat.min_eq_left hkeys]

/-- A left field of a result is the field of the left tuple, or the equal field of the right key. -/
theorem getD_join_left (hkeys : numKeys ≤ l.length) (hi : i < l.length) :
    (r.take numKeys ++ l.drop numKeys ++ r.drop numKeys).getD i default = l.getD i default ∨
      l.getD i default ==
        (r.take numKeys ++ l.drop numKeys ++ r.drop numKeys).getD i default := by
  have hlen := length_key_of_mem_matchesOf h hkeys
  rw [append_assoc]
  by_cases hkey : i < numKeys
  · right
    have hright : (r.take numKeys).getD i default = r.getD i default := by
      rw [getD_eq_getElem?_getD, getElem?_take, if_pos hkey, ← getD_eq_getElem?_getD]
    rw [getD_append _ _ _ _ (by omega), hright]
    exact getD_beq_of_mem_matchesOf h hkey hi
  · left
    rw [getD_append_right _ _ _ _ (by omega), hlen,
      getD_append _ _ _ _ (by rw [length_drop]; omega), getD_eq_getElem?_getD, getElem?_drop,
      getD_eq_getElem?_getD]
    congr 2
    omega

/-- A right field of a result behind the keys. -/
theorem getD_join_right (hwidth : l.length = width) (hkeys : numKeys ≤ width) (hi : numKeys ≤ i) :
    (r.take numKeys ++ l.drop numKeys ++ r.drop numKeys).getD (i + width - numKeys) default =
      r.getD i default := by
  have hlen := length_key_of_mem_matchesOf h (hwidth ▸ hkeys)
  have hleft : (r.take numKeys ++ l.drop numKeys).length = width := by
    rw [length_append, hlen, length_drop]
    omega
  rw [getD_append_right _ _ _ _ (by omega), hleft]
  simp only [getD_eq_getElem?_getD, getElem?_drop]
  congr 2
  omega

end Matches

/-- A right field of a join behind the keys: the right tuples come in order, each once for every match. -/
theorem column_join_right {width numKeys i : ℕ} (hls : ∀ l ∈ ls, l.length = width)
    (hkeys : numKeys ≤ width) (hi : numKeys ≤ i) :
    column (joinTuples numKeys ls rs) (i + width - numKeys) =
      repeats (fun r => (matchesOf numKeys ls r).length) (fun r => r.getD i default) rs := by
  unfold column repeats
  rw [joinTuples_eq, map_flatMap]
  refine congrArg (fun f => flatMap f rs) (funext fun r => ?_)
  rw [List.map_map, ← map_const']
  exact map_congr_left fun l hl => getD_join_right hl (hls l (mem_of_mem_filter hl)) hkeys hi

variable [LT α] [Comparable α]

/-- With a unique first field on the left, a right tuple has at most one match. -/
theorem length_matchesOf_le_one (hls : ∀ l ∈ ls, 0 < l.length) (hkeys : 1 ≤ numKeys)
    (h : Distinct (column ls 0)) (r : Tuple α) : (matchesOf numKeys ls r).length ≤ 1 := by
  have hdist : (matchesOf numKeys ls r).Pairwise fun l l' =>
      (l.getD 0 default == l'.getD 0 default) = false :=
    (pairwise_map.mp h).sublist filter_sublist
  have hkey : ∀ l ∈ matchesOf numKeys ls r, l.getD 0 default == r.getD 0 default := fun l hl =>
    getD_beq_of_mem_matchesOf hl hkeys (hls l (mem_of_mem_filter hl))
  match hm : matchesOf numKeys ls r with
  | [] => simp
  | [_] => simp
  | l :: l' :: rest =>
    -- both are equal to the key of the right tuple
    rw [hm] at hdist hkey
    have hne := (pairwise_cons.mp hdist).1 l' (by simp)
    rw [BEq.trans (hkey l (by simp)) (BEq.symm (hkey l' (by simp)))] at hne
    cases hne

/-- With unique first fields on both sides, a unique left field stays unique. -/
theorem distinct_column_join_left {width numKeys i : ℕ} (hkeys : 1 ≤ numKeys)
    (hwidth : numKeys ≤ width) (hls : ∀ l ∈ ls, l.length = width) (hi : i < width)
    (hleftKey : Distinct (column ls 0)) (hright : Distinct (column rs 0))
    (hleft : Distinct (column ls i)) : Distinct (column (joinTuples numKeys ls rs) i) := by
  have hpos : ∀ l ∈ ls, 0 < l.length := fun l hl => by rw [hls l hl]; omega
  rw [Distinct, column, joinTuples_eq, pairwise_map, pairwise_flatMap]
  refine ⟨fun r _ => ?_, (pairwise_map.mp hright).imp fun {r r'} hne t ht t' ht' => ?_⟩
  · have hone := length_matchesOf_le_one hpos hkeys hleftKey r
    match hm : matchesOf numKeys ls r with
    | [] => exact .nil
    | [_] => exact pairwise_singleton _ _
    | _ :: _ :: _ => simp [hm] at hone
  · obtain ⟨l, hl, rfl⟩ := mem_map.mp ht
    obtain ⟨l', hl', rfl⟩ := mem_map.mp ht'
    have hmem := mem_of_mem_filter hl
    have hmem' := mem_of_mem_filter hl'
    have hlen := hls l hmem
    have hlen' := hls l' hmem'
    by_cases hsame : l = l'
    · -- one left tuple matches one right tuple only
      subst hsame
      rw [BEq.trans (BEq.symm (getD_beq_of_mem_matchesOf hl hkeys (by omega)))
        (getD_beq_of_mem_matchesOf hl' hkeys (by omega))] at hne
      cases hne
    · have : Std.Symm fun l l' : Tuple α => (l.getD i default == l'.getD i default) = false :=
        ⟨fun l l' h => by rwa [BEq.comm]⟩
      have hfields := (pairwise_map.mp hleft).forall hmem hmem' hsame
      refine Bool.eq_false_iff.mpr fun heq => ?_
      rw [Bool.eq_false_iff] at hfields
      refine hfields ?_
      rcases getD_join_left hl (by omega) (by omega : i < l.length) with hx | hx <;>
        rcases getD_join_left hl' (by omega) (by omega : i < l'.length) with hx' | hx'
      · rwa [hx, hx'] at heq
      · rw [hx] at heq
        exact BEq.trans heq (BEq.symm hx')
      · rw [hx'] at heq
        exact BEq.trans hx heq
      · exact BEq.trans hx (BEq.trans heq (BEq.symm hx'))

/-- The keys of a reduction by key are distinct, in whatever order they come. -/
theorem distinct_column_reduceTuples (order : HashTable.IterationOrder (Value α))
    (function : Tuple α → Tuple α → Tuple α) (xs : List (Tuple α)) :
    Distinct (column (reduceTuples order function xs) 0) := by
  have hdiffer := HashTable.KeysDiffer.reduceTable function .nil (xs.map splitTuple)
  unfold Distinct column reduceTuples reduceByKeyRows
  rw [List.map_map, pairwise_map]
  exact ((HashTable.entries_perm order _).pairwise_iff fun h => by rwa [BEq.comm]).mpr hdiffer

section

variable (function : Tuple α → Tuple α → Tuple α)

/-- The keys of the runs behind a first tuple. -/
theorem keys_groupedFrom (k : Value α) (v : Tuple α) :
    ((groupedFrom Tuple.v0 List.tail function k v xs).map Prod.fst).Sublist (k :: xs.map Tuple.v0) ∧
      (Grouped (k :: xs.map Tuple.v0) →
        Distinct ((groupedFrom Tuple.v0 List.tail function k v xs).map Prod.fst)) := by
  induction xs generalizing k v with
  | nil => exact ⟨List.Sublist.refl _, fun _ => pairwise_singleton _ _⟩
  | cons t ts ih =>
    unfold groupedFrom
    split
    · next hbne =>
      have hne : ¬ k == t.v0 := by
        rw [BEq.comm]
        simpa [bne] using hbne
      obtain ⟨hsub, hdist⟩ := ih t.v0 t.tail
      refine ⟨hsub.cons_cons k, fun hgrpd => ?_⟩
      refine pairwise_cons.mpr ⟨fun k' hk' => ?_,
        hdist (hgrpd.sublist (sublist_cons_self _ _))⟩
      -- a second run of `k` would be cut off from the first by this tuple
      rcases mem_cons.mp (hsub.subset hk') with rfl | hlater
      · exact Bool.eq_false_iff.mpr hne
      · exact hgrpd.ne_of_mem hne hlater
    · next heq =>
      obtain ⟨hsub, hdist⟩ := ih k (function v t.tail)
      have hskip : (k :: ts.map Tuple.v0).Sublist (k :: (t :: ts).map Tuple.v0) :=
        (sublist_cons_self _ _).cons_cons k
      exact ⟨hsub.trans hskip, fun hgrpd => hdist (hgrpd.sublist hskip)⟩

/-- The keys of a grouped reduction are among those of its input, and distinct if these are grouped. -/
theorem column_reduceGroupedTuples (xs : List (Tuple α)) :
    (column (reduceGroupedTuples function xs) 0).Sublist (column xs 0) ∧
      (Grouped (column xs 0) → Distinct (column (reduceGroupedTuples function xs) 0)) := by
  have hcol : column (reduceGroupedTuples function xs) 0 =
      (reduceByKeyGroupedRows Tuple.v0 List.tail function xs).map Prod.fst := by
    unfold column reduceGroupedTuples
    rw [List.map_map]
    exact map_congr_left fun _ _ => rfl
  rw [hcol, column_zero_eq]
  cases xs with
  | nil => exact ⟨List.Sublist.refl _, fun _ => .nil⟩
  | cons t ts => exact keys_groupedFrom function t.v0 t.tail

end

end Columns

/-! ### Indexes and ranges -/

variable {rows xs : List (Tuple α)}

/-- The index ranges of the arrays that a scan reads come in increasing order. -/
def IndexesIncrease (xs : List (Tuple α)) : Prop :=
  xs.Pairwise fun t t' => rowShape t = 0 ∨ rowShape t' = 0 ∨ rowOffset t + rowShape t ≤ rowOffset t'

/-- The indexes that a scan adds. -/
def scanIndexes (xs : List (Tuple α)) : List ℤ := xs.flatMap fun t => (range' (rowOffset t) (rowShape t)).map Nat.cast

theorem scanIndexes_increase (h : IndexesIncrease xs) : (scanIndexes xs).Pairwise (· < ·) := by
  unfold scanIndexes
  rw [pairwise_flatMap]
  refine ⟨fun t _ => ?_, h.imp fun {t t'} hrange x hx y hy => ?_⟩
  · rw [pairwise_map]
    exact (pairwise_lt_range' 1 Nat.one_pos).imp fun hlt => Nat.cast_lt.mpr hlt
  · obtain ⟨i, hi, rfl⟩ := mem_map.mp hx
    obtain ⟨j, hj, rfl⟩ := mem_map.mp hy
    rw [mem_range'_1] at hi hj
    omega

variable {lookup : Tuple α → ℕ → Option (Tuple α)}

/-- Rows that carry their index in front. -/
theorem column_of_scanRows {t : Tuple α}
    (hlook : ∀ i row, lookup t i = some row → row.v0 = .long i) (h : ScanRows rowOffset rowShape lookup t rows) :
    column rows 0 = (range' (rowOffset t) (rowShape t)).map fun i : ℕ => .long (i : ℤ) := by
  unfold ScanRows at h
  rw [column_zero_eq]
  generalize range' (rowOffset t) (rowShape t) = is at h
  induction h with
  | nil => rfl
  | cons hrow _ ih => rw [map_cons, map_cons, ih, hlook _ _ hrow]

/-- The index field of a scan over arrays whose indexes increase. -/
theorem column_scan_increases [LT α] (hidxs : IndexesIncrease xs)
    (hlook : ∀ t i row, lookup t i = some row → row.v0 = .long i)
    {rows : Tuple α → List (Tuple α)}
    (h : ∀ t ∈ xs, ScanRows rowOffset rowShape lookup t (rows t)) :
    (column (xs.flatMap rows) 0).Pairwise (· < ·) := by
  have hcol : column (xs.flatMap rows) 0 = (scanIndexes xs).map .long := by
    unfold column scanIndexes
    rw [map_flatMap, map_flatMap]
    refine flatMap_congr fun t ht => ?_
    rw [List.map_map]
    exact column_of_scanRows (hlook t) (h t ht)
  rw [hcol, pairwise_map]
  exact (scanIndexes_increase hidxs).imp Value.long_lt_long.mpr

theorem rowLookup_index (t : Tuple α) (i : ℕ) (row : Tuple α) (h : rowLookup true t i = some row) :
    row.v0 = .long i := by
  unfold rowLookup at h
  split at h
  · obtain ⟨_, -, rfl⟩ := map_eq_some_iff.mp h
    rfl
  · simp at h

theorem columnLookup_index (t : Tuple α) (i : ℕ) (row : Tuple α)
    (h : columnLookup true t i = some row) : row.v0 = .long i := by
  obtain ⟨_, -, rfl⟩ := map_eq_some_iff.mp h
  rfl

section Range

variable {V : Type} [Arith V] {from_ to_ step : V}

/-- The member `current` of a range source after `k` values. -/
def rangeCurrent (from_ step : V) : ℕ → V
  | 0 => from_
  | k + 1 => Arith.plus (rangeCurrent from_ step k) step

/-- Each value that a range source returns is less than the next one.  The value is `current` after
    an addition and a subtraction, which may wrap around or be rounded. -/
def RangeIncreases [LT V] (from_ to_ step : V) : Prop :=
  ∀ k, (∀ j ≤ k + 1, rangeCurrent from_ step j < to_) →
    Arith.minus (rangeCurrent from_ step (k + 1)) step <
      Arith.minus (rangeCurrent from_ step (k + 2)) step

theorem rangeCurrent_plus (k : ℕ) :
    rangeCurrent (Arith.plus from_ step) step k = rangeCurrent from_ step (k + 1) := by
  induction k with
  | zero => rfl
  | succ k ih =>
    rw [rangeCurrent, ih]
    rfl

variable [LT V]

theorem RangeIncreases.rest (h : RangeIncreases from_ to_ step) (hlt : from_ < to_) :
    RangeIncreases (Arith.plus from_ step) to_ step := by
  intro k hcur
  rw [rangeCurrent_plus, rangeCurrent_plus]
  refine h (k + 1) fun j hj => ?_
  cases j with
  | zero => exact hlt
  | succ j =>
    rw [← rangeCurrent_plus]
    exact hcur j (by omega)

/-- The values of such a range increase.  The induction is on the run; the last value of the rest is
    compared with its first one. -/
theorem RangeIncreases.pairwise (htrans : ∀ {a b c : V}, a < b → b < c → a < c) {vs : List V}
    (hrun : RangeRun to_ step from_ vs) (h : RangeIncreases from_ to_ step) :
    vs.Pairwise (· < ·) := by
  have : IsTrans V (· < ·) := ⟨fun _ _ _ => htrans⟩
  rw [← isChain_iff_pairwise]
  induction hrun with
  | stop _ => exact .nil
  | more hlt hrest ih =>
    have hchain := ih (h.rest hlt)
    cases hrest with
    | stop _ => exact .singleton _
    | more hlt' _ =>
      refine .cons_cons (h 0 fun j hj => ?_) hchain
      match j with
      | 0 => exact hlt
      | 1 => exact hlt'
      | j + 2 => omega

end Range

/-- A range of `long`s that ends without an overflow. -/
theorem rangeIncreases_long [LT α] [Arith α] {from_ to_ step : ℤ} (h : RangeEnds from_ to_ step) :
    RangeIncreases (V := Value α) (.long from_) (.long to_) (.long step) := by
  intro k hcur
  have hlt : from_ < to_ := hcur 0 (by omega)
  obtain ⟨hpos, hlo, hhi⟩ := h.resolve_left (by omega)
  obtain ⟨hreaches, -⟩ := rangeCount_bounds hpos hlt.le
  -- below the number of values no addition overflows
  have hexact : ∀ j ≤ rangeCount from_ to_ step,
      rangeCurrent (V := Value α) (.long from_) (.long step) j = .long (from_ + j * step) := by
    intro j hj
    induction j with
    | zero => simp [rangeCurrent]
    | succ j ih =>
      have hle : ((j + 1 : ℕ) : ℤ) * step ≤ rangeCount from_ to_ step * step :=
        mul_le_mul_of_nonneg_right (by exact_mod_cast hj) hpos.le
      have hj0 : (0 : ℤ) ≤ j * step := by positivity
      push_cast at hle ⊢
      rw [rangeCurrent, ih (by omega)]
      show Value.long (wrap64 (from_ + j * step + step)) = _
      rw [wrap64_eq (by linarith) (by linarith)]
      congr 1
      ring
  have hnext : k + 2 ≤ rangeCount from_ to_ step := by
    by_contra hmore
    have hlast := hcur (rangeCount from_ to_ step) (by omega)
    rw [hexact _ le_rfl, Value.long_lt_long] at hlast
    omega
  have hle : ((k + 2 : ℕ) : ℤ) * step ≤ rangeCount from_ to_ step * step :=
    mul_le_mul_of_nonneg_right (by exact_mod_cast hnext) hpos.le
  have hk0 : (0 : ℤ) ≤ k * step := by positivity
  rw [hexact (k + 1) (by omega), hexact (k + 2) hnext]
  push_cast at hle ⊢
  show wrap64 (from_ + (k + 1) * step - step) < wrap64 (from_ + (k + 2) * step - step)
  rw [wrap64_eq (by linarith) (by linarith), wrap64_eq (by linarith) (by linarith)]
  linarith

/-- Of `double`s: from -9007199254740994 in steps of 1, the first two values are both rounded to
    -9007199254740992. -/
example : ¬ RangeIncreases (Atom.double 0xc340000000000001) (.double 0xc33ffffffffffffe)
    (.double 0x3ff0000000000000) := by
  intro h
  exact absurd (h 0 (by decide +kernel)) (by decide +kernel)

/-- The first input tuple of a range gives one that increases. -/
def RangeInputIncreases [LT α] [Arith α] (xs : List (Tuple α)) : Prop :=
  ∀ t ∈ xs.head?, RangeIncreases (rangeBounds t).1 (rangeBounds t).2.1 (rangeBounds t).2.2

theorem rangeValues_increase [BEq α] [LT α] [Comparable α] [Arith α] {vs : List (Value α)}
    (hincreases : RangeInputIncreases xs) (h : RangeValues rangeBounds xs vs) :
    vs.Pairwise (· < ·) := by
  cases xs with
  | nil =>
    obtain rfl : vs = [] := h
    exact .nil
  | cons t ts => exact (hincreases t rfl).pairwise Comparable.lt_trans h

/-! ### What the marks say -/

/-- The meaning of a mark, for the values of the field, which are compared like in C++. -/
def FieldProperty.Holds [BEq α] [LT α] (values : List (Value α)) : FieldProperty → Prop
  | grouped => Grouped values
  | sorted => values.Pairwise fun a b => ¬ b < a
  | unique => Distinct values

/-- The same with what the pass relies on for `sorted`: neighbours are the same or increase. -/
def FieldProperty.HoldsExactly [BEq α] [LT α] (values : List (Value α)) : FieldProperty → Prop
  | grouped => Grouped values
  | sorted => values.Pairwise fun a b => a < b ∨ a = b
  | unique => Distinct values

variable [BEq α] [LT α] {values : List (Value α)} {p : FieldProperty} {field : Field}
  {fields : List Field}

theorem FieldProperty.HoldsExactly.holds [Comparable α] (h : p.HoldsExactly values) :
    p.Holds values := by
  cases p with
  | grouped => exact h
  | unique => exact h
  | sorted =>
    refine List.Pairwise.imp (fun hab hlt => ?_) h
    rcases hab with hab | rfl
    · exact Comparable.lt_irrefl _ (Comparable.lt_trans hab hlt)
    · exact Comparable.lt_irrefl _ hlt

/-- A property of a sequence is one of its sub-sequences. -/
theorem FieldProperty.HoldsExactly.sublist {values' : List (Value α)} (h : p.HoldsExactly values)
    (hsub : values'.Sublist values) : p.HoldsExactly values' := by
  cases p with
  | grouped => exact Grouped.sublist h hsub
  | unique => exact List.Pairwise.sublist hsub h
  | sorted => exact List.Pairwise.sublist hsub h

/-- Equal values of a sorted sequence are adjacent. -/
theorem grouped_of_sorted [Comparable α] (h : FieldProperty.sorted.HoldsExactly values) :
    Grouped values := by
  refine grouped_of_pairwise h fun {x y z} hxy hyz _ hxz => ?_
  rcases hxy with hxy | rfl
  · have hlt : x < z := hyz.elim (Comparable.lt_trans hxy) (· ▸ hxy)
    exact absurd ((Comparable.beq_false_of_lt hlt).symm.trans hxz) Bool.false_ne_true
  · exact BEq.trans hxz (BEq.symm hxz)

/-- Increasing values are unique and sorted. -/
theorem increasing_holds [Comparable α] (h : values.Pairwise (· < ·)) :
    FieldProperty.unique.HoldsExactly values ∧ FieldProperty.sorted.HoldsExactly values :=
  ⟨h.imp Comparable.beq_false_of_lt, h.imp .inl⟩

/-- A field all of whose marks hold. -/
def Good (values : List (Value α)) (field : Field) : Prop := ∀ p ∈ field.properties, p.HoldsExactly values

theorem Good.addProperty (h : Good values field) (hp : p.HoldsExactly values) :
    Good values (field.addProperty p) := by
  intro q hq
  rcases Finset.mem_insert.mp hq with rfl | hq
  · exact hp
  · exact h q hq

theorem Good.copyProperties {other : Field} (h : Good values field) (hother : Good values other) :
    Good values (field.copyProperties other) := by
  intro q hq
  rcases Finset.mem_union.mp hq with hq | hq
  · exact h q hq
  · exact hother q hq

/-- A sorted or unique field is grouped. -/
theorem Good.implyGrouped [Comparable α] (h : Good values field) : Good values (implyGrouped field) := by
  have hunique : Good values (if field.has .unique then field.addProperty .grouped else field) := by
    split
    · next hmark => exact h.addProperty (Distinct.grouped (h .unique (by simpa [Field.has] using hmark)))
    · exact h
  unfold Optimize.implyGrouped
  dsimp only
  generalize (if field.has .unique then field.addProperty .grouped else field) = marked at hunique ⊢
  split
  · next hmark =>
    exact hunique.addProperty (grouped_of_sorted (hunique .sorted (by simpa [Field.has] using hmark)))
  · exact hunique

/-- All marks on the fields of an operator hold for the tuples that it emits. -/
def GoodFields (rows : List (Tuple α)) (fields : List Field) : Prop :=
  ∀ i field, fields[i]? = some field → Good (column rows i) field

theorem goodFields_of_clear (h : ∀ field ∈ fields, field.properties = ∅) : GoodFields rows fields := by
  intro i field hfield p hp
  rw [h field (mem_of_getElem? hfield)] at hp
  simp at hp

/-! ### Loops over fields -/

/-- Fields that differ in their marks only. -/
def SameIds (fields fields' : List Field) : Prop := fields'.map Field.attributeId = fields.map Field.attributeId

theorem SameIds.length_eq {fields' : List Field} (h : SameIds fields fields') : fields'.length = fields.length := by
  simpa using congrArg List.length h

theorem SameIds.exists_getElem? {fields' : List Field} (h : SameIds fields fields') {i : ℕ}
    {field : Field} (hfield : fields'[i]? = some field) :
    ∃ old, fields[i]? = some old ∧ old.attributeId = field.attributeId := by
  have hmap := congrArg (fun ids : List ℕ => ids[i]?) h
  simp only [getElem?_map, hfield, map_some] at hmap
  exact map_eq_some_iff.mp hmap.symm

/-- The step succeeds: it keeps the ids, and its marks hold. -/
def Marks (rows : List (Tuple α)) (fields : List Field) (visited : Option (List Field)) : Prop :=
  ∃ fields', visited = some fields' ∧ SameIds fields fields' ∧ GoodFields rows fields'

theorem Marks.self (hfields : GoodFields rows fields) : Marks rows fields (some fields) :=
  ⟨fields, rfl, rfl, hfields⟩

theorem Marks.bind {visited : Option (List Field)} {next : List Field → Option (List Field)}
    (h : Marks rows fields visited)
    (hnext : ∀ fields', fields'.length = fields.length → GoodFields rows fields' →
      Marks rows fields' (next fields')) :
    Marks rows fields (visited.bind next) := by
  obtain ⟨fields1, rfl, hids1, hgood1⟩ := h
  obtain ⟨fields', hfields', hids', hgood'⟩ := hnext fields1 hids1.length_eq hgood1
  exact ⟨fields', hfields', hids'.trans hids1, hgood'⟩

/-- A step that updates every field on its own. -/
theorem marks_of_getElem? {fields' : List Field} (effect : ℕ → Field → Field)
    (hget : ∀ i, fields'[i]? = fields[i]?.map (effect i))
    (hid : ∀ i field, (effect i field).attributeId = field.attributeId)
    (hgood : ∀ i field, fields[i]? = some field → Good (column rows i) (effect i field)) :
    Marks rows fields (some fields') := by
  refine ⟨fields', rfl, ext_getElem? fun i => ?_, fun i field hfield => ?_⟩
  · rw [getElem?_map, getElem?_map, hget]
    cases fields[i]? <;> simp [hid]
  · rw [hget] at hfield
    obtain ⟨old, hold, rfl⟩ := map_eq_some_iff.mp hfield
    exact hgood i old hold

/-- An update of a field with the given values that sets true marks only. -/
structure Sound (vs : List (Value α)) (update : Field → Field) : Prop where
  id : ∀ field, (update field).attributeId = field.attributeId
  good : ∀ field, Good vs field → Good vs (update field)

variable {vs : List (Value α)} {update : Field → Field}

theorem sound_addProperty {p : FieldProperty} (h : p.HoldsExactly vs) : Sound vs (Field.addProperty p) :=
  ⟨fun _ => rfl, fun _ hfield => hfield.addProperty h⟩

theorem Sound.comp {update' : Field → Field} (h : Sound vs update') (h' : Sound vs update) :
    Sound vs (update' ∘ update) :=
  ⟨fun field => (h.id _).trans (h'.id field), fun field hfield => h.good _ (h'.good field hfield)⟩

theorem sound_ite {mark : Prop} [Decidable mark] {p : FieldProperty} (h : mark → p.HoldsExactly vs) :
    Sound vs fun field => if mark then field.addProperty p else field := by
  split
  · next hmark => exact sound_addProperty (h hmark)
  · exact ⟨fun _ => rfl, fun _ hfield => hfield⟩

theorem updateField_good {i : ℕ} (hfields : GoodFields rows fields) (hi : i < fields.length)
    (hupdate : Sound (column rows i) update) : Marks rows fields (updateField i update fields) := by
  rw [updateField, if_pos hi]
  refine marks_of_getElem? _ (fun j => getElem?_modify update i fields j) (fun j field => ?_)
    fun j field hfield => ?_
  · split
    · exact hupdate.id field
    · rfl
  · split
    · next hij =>
      subst hij
      exact hupdate.good field (hfields i field hfield)
    · exact hfields j field hfield

/-- A loop marks what its updates mark, if these stay in range and keep to true marks. -/
theorem forFields_good {input : List Field} {start : ℕ} {target : ℕ → ℕ} {effect : Field → Option (Field → Field)}
    (hfields : GoodFields rows fields)
    (hupdate : ∀ i field update, start ≤ i → input[i]? = some field → effect field = some update →
      target i < fields.length ∧ Sound (column rows (target i)) update) :
    Marks rows fields (forFields input start target effect fields) := by
  have hlist : ∀ p ∈ input.zipIdx.drop start, start ≤ p.2 ∧ input[p.2]? = some p.1 := by
    intro p hp
    obtain ⟨k, hk⟩ := mem_iff_getElem?.mp hp
    rw [getElem?_drop, getElem?_zipIdx] at hk
    obtain ⟨field, hfield, rfl⟩ := map_eq_some_iff.mp hk
    exact ⟨by simp, by simpa using hfield⟩
  unfold forFields
  generalize input.zipIdx.drop start = ps at hlist
  -- the fields change along the loop, but not their number
  induction ps generalizing fields with
  | nil => exact .self hfields
  | cons p ps ih =>
    obtain ⟨hstart, hget⟩ := hlist p mem_cons_self
    rw [foldlM_cons]
    refine Marks.bind ?_ fun fields' hlen hfields' =>
      ih hfields' (by rwa [hlen]) fun q hq => hlist q (mem_cons_of_mem _ hq)
    cases heffect : effect p.1 with
    | none => simpa only [heffect] using Marks.self hfields
    | some update =>
      obtain ⟨hrange, hsound⟩ := hupdate p.2 p.1 update hstart hget heffect
      simpa only [heffect] using updateField_good hfields hrange hsound

/-! ### One visit -/

section Visit

variable {ls rs xs : List (Tuple α)} {left right input fields : List Field}

theorem has_iff {p : FieldProperty} {field : Field} : field.has p = true ↔ p ∈ field.properties := by
  simp [Field.has]

/-- Repeating sorted values keeps them sorted. -/
theorem sorted_repeats {f : Tuple α → Value α} {count : Tuple α → ℕ}
    (h : FieldProperty.sorted.HoldsExactly (rs.map f)) :
    FieldProperty.sorted.HoldsExactly (repeats count f rs) :=
  pairwise_repeats (fun _ => .inr rfl) h

theorem visitCartesian_good (hls : ∀ l ∈ ls, l.length = left.length)
    (hlen : fields.length = left.length + right.length) (hright : GoodFields rs right)
    (hfields : GoodFields (cartesianRows (· ++ ·) ls rs) fields) :
    Marks (cartesianRows (· ++ ·) ls rs) fields
      (forFields right 0 (fun i => i + left.length) (fun field => some (cartesianEffect field)) fields) := by
  refine forFields_good hfields fun i field update _ hget heffect => ?_
  cases heffect
  have hi : i < right.length := (List.getElem?_eq_some_iff.mp hget).1
  have hgood := hright i field hget
  refine ⟨by omega, ?_⟩
  rw [column_cartesian hls i]
  exact (sound_ite fun hmark => sorted_repeats (hgood .sorted (has_iff.mp hmark))).comp
    (sound_ite fun hmark => grouped_repeats (hgood .unique (has_iff.mp hmark)))

/-- The index field of a scan over arrays whose indexes increase. -/
theorem visitScan_good [Comparable α] {rows : List (Tuple α)} (addIndex : Bool)
    (hlen : addIndex.toNat ≤ fields.length) (hfields : GoodFields rows fields)
    (hidx : addIndex = true → (column rows 0).Pairwise (· < ·)) :
    Marks rows fields (visitScan addIndex fields) := by
  cases addIndex with
  | false => exact .self hfields
  | true =>
    obtain ⟨hunique, hsorted⟩ := increasing_holds (hidx rfl)
    exact updateField_good hfields hlen ((sound_addProperty hsorted).comp (sound_addProperty hunique))

theorem visitFilter_good {function : Tuple α → Bool} (hlen : fields.length = input.length)
    (hinp : GoodFields xs input) (hfields : GoodFields (xs.filter function) fields) :
    Marks (xs.filter function) fields (visitFilter input fields) := by
  have hvisit : visitFilter input fields =
      some (fields.zipIdx.map fun p => p.1.copyProperties (input.getD p.2 p.1)) := by
    refine Partial.mapM_eq_some_map fun p hp => ?_
    obtain ⟨field, i⟩ := p
    have hi : i < input.length := by
      have := (mem_zipIdx hp).2.1
      omega
    show (input[i]?).map _ = some (field.copyProperties (input.getD i field))
    rw [getElem?_eq_getElem hi, getD_eq_getElem _ _ hi]
    rfl
  rw [hvisit]
  refine marks_of_getElem? (fun i field => field.copyProperties (input.getD i field))
    (fun i => ?_) (fun _ _ => rfl) fun i field hfield => ?_
  · simp [getElem?_zipIdx, Function.comp_def]
  · have hi : i < input.length := hlen ▸ (List.getElem?_eq_some_iff.mp hfield).1
    refine (hfields i field hfield).copyProperties fun q hq => ?_
    rw [getD_eq_getElem _ _ hi] at hq
    exact (hinp i _ (getElem?_eq_getElem hi) q hq).sublist (filter_sublist.map _)

theorem ifUnique_eq_some {p : FieldProperty} {field : Field} (h : ifUnique p field = some update) :
    .unique ∈ field.properties ∧ update = Field.addProperty p := by
  unfold ifUnique at h
  split at h
  · next hmark => exact ⟨has_iff.mp hmark, (some.inj h).symm⟩
  · simp at h

/-- A `Join` whose marks are computed for the right fields: it has one key, or no right field behind the
    first is unique together with it. -/
def JoinMarksAllowed (numKeys : ℕ) (right : List Field) : Prop :=
  numKeys = 1 ∨ ∀ key ∈ right[0]?, .unique ∈ key.properties →
    ∀ i field, 1 ≤ i → right[i]? = some field → .unique ∉ field.properties

theorem visitJoin_good [Comparable α] (hls : ∀ l ∈ ls, l.length = left.length)
    (hkeys : 1 ≤ numKeys) (hkeysLeft : numKeys ≤ left.length) (hkeysRight : numKeys ≤ right.length)
    (hlen : fields.length = left.length + (right.length - numKeys)) (hleft : GoodFields ls left)
    (hright : GoodFields rs right) (hfields : GoodFields (joinTuples numKeys ls rs) fields)
    (hallowed : JoinMarksAllowed numKeys right) :
    Marks (joinTuples numKeys ls rs) fields (visitJoin left right fields) := by
  obtain ⟨leftKey, hleftKey⟩ : ∃ key, left[0]? = some key := ⟨_, getElem?_eq_getElem (by omega)⟩
  obtain ⟨rightKey, hrightKey⟩ : ∃ key, right[0]? = some key := ⟨_, getElem?_eq_getElem (by omega)⟩
  -- the loop over the right fields, once it is known that the key of the right side is unique
  have hloop : ∀ (p : FieldProperty) (fields1 : List Field), fields1.length = fields.length →
      .unique ∈ rightKey.properties → GoodFields (joinTuples numKeys ls rs) fields1 →
      (∀ i field, right[i]? = some field → .unique ∈ field.properties →
        p.HoldsExactly (repeats (fun r => (matchesOf numKeys ls r).length)
          (fun r => r.getD i default) rs)) →
      Marks (joinTuples numKeys ls rs) fields1
        (forFields right 1 (fun i => i + left.length - 1) (ifUnique p) fields1) := by
    intro p fields1 hlen1 hunique hfields1 hmark
    refine forFields_good hfields1 fun i field update hi hget heffect => ?_
    obtain ⟨hfield, rfl⟩ := ifUnique_eq_some heffect
    obtain rfl : numKeys = 1 :=
      hallowed.resolve_right fun hnone => hnone rightKey hrightKey hunique i field hi hget hfield
    have hrange : i < right.length := (List.getElem?_eq_some_iff.mp hget).1
    refine ⟨by omega, sound_addProperty ?_⟩
    rw [column_join_right hls hkeysLeft hi]
    exact hmark i field hget hfield
  unfold visitJoin
  rw [hleftKey, hrightKey]
  simp only [bind_eq_bind, bind_some]
  split
  · next hboth =>
    obtain ⟨hleftUnique, hrightUnique⟩ := Bool.and_eq_true_iff.mp hboth
    have hleftCol : Distinct (column ls 0) :=
      hleft 0 leftKey hleftKey .unique (has_iff.mp hleftUnique)
    have hrightCol : Distinct (column rs 0) :=
      hright 0 rightKey hrightKey .unique (has_iff.mp hrightUnique)
    have hpos : ∀ l ∈ ls, 0 < l.length := fun l hl => by rw [hls l hl]; omega
    refine Marks.bind ?_ fun fields1 hlen1 hfields1 =>
      hloop .unique fields1 hlen1 (has_iff.mp hrightUnique) hfields1 fun i field hget hfield => ?_
    · refine forFields_good hfields fun i field update _ hget heffect => ?_
      obtain ⟨hfield, rfl⟩ := ifUnique_eq_some heffect
      have hi : i < left.length := (List.getElem?_eq_some_iff.mp hget).1
      exact ⟨by omega, sound_addProperty (distinct_column_join_left hkeys hkeysLeft hls hi hleftCol
        hrightCol (hleft i field hget .unique hfield))⟩
    · exact List.Pairwise.sublist
        (repeats_sublist fun r _ => length_matchesOf_le_one hpos hkeys hleftCol r)
        (hright i field hget .unique hfield)
  · split
    · next hrightUnique =>
      exact hloop .grouped fields rfl (has_iff.mp hrightUnique) hfields
        fun i field hget hfield => grouped_repeats (hright i field hget .unique hfield)
    · exact .self hfields

theorem visitMap_good {rows : List (Tuple α)} (hfields : GoodFields rows fields) (hinp : GoodFields xs input)
    (hids : ∀ i j a b, fields[i]? = some a → input[j]? = some b → a.attributeId = b.attributeId →
      column rows i = column xs j) :
    Marks rows fields (some (visitMap input fields)) := by
  refine marks_of_getElem? _ (fun i => getElem?_map) (fun i field => ?_) fun i field hfield => ?_
  · split <;> rfl
  · split
    · next other hfind =>
      obtain ⟨j, hj⟩ := mem_iff_getElem?.mp (mem_of_find?_eq_some hfind)
      have hid : field.attributeId = other.attributeId := by simpa using find?_some hfind
      refine (hfields i field hfield).copyProperties fun q hq => ?_
      rw [hids i j field other hfield hj hid]
      exact hinp j other hj q hq
    · exact hfields i field hfield

end Visit

/-! ### The whole pass -/

section Pass

variable [Arith α] {dag : Dag (Operator α)} {width : ℕ → ℕ} {rows : ℕ → List (Tuple α)}

/-- A field of a `Map` that has the id of a field of its input has its values. -/
def IdsSound (dag : Dag (Operator α)) (rows : ℕ → List (Tuple α)) (tuples : Tuples) : Prop :=
  ∀ v ∈ dag.operators, ∀ function u, dag.op v = .map function → dag.predecessor v = some u →
    ∀ i j a b, (tuples v)[i]? = some a → (tuples u)[j]? = some b → a.attributeId = b.attributeId →
      column (rows v) i = column (rows u) j

/-- The marks that a visit sets are justified, from the marks on the inputs and the tuples that reach
    the operator. -/
def MarksAllowed (dag : Dag (Operator α)) (rows : ℕ → List (Tuple α)) (tuples : Tuples) (v : ℕ) : Prop :=
  match dag.op v with
  | .join numKeys => ∀ r ∈ dag.predecessorOn v 1, JoinMarksAllowed numKeys (tuples r)
  | .columnScan addIndex => addIndex = true → ∀ u ∈ dag.predecessor v, IndexesIncrease (rows u)
  | .rowScan addIndex => addIndex = true → ∀ u ∈ dag.predecessor v, IndexesIncrease (rows u)
  | .range => ∀ u ∈ dag.predecessor v, RangeInputIncreases (rows u)
  | .reduceByKeyGrouped _ => ∀ u ∈ dag.predecessor v, Grouped (column (rows u) 0)
  | _ => True

/-- An execution of a checked plan on well-typed data. -/
structure TypedExecution (dag : Dag (Operator α)) (width : ℕ → ℕ) (rows : ℕ → List (Tuple α)) : Prop where
  checked : dag.Checked width
  executes : dag.Executes rows
  typed : ∀ v ∈ dag.operators, ∀ t ∈ rows v, t.length = width v

section

variable {v : ℕ} {op : Operator α} (h : TypedExecution dag width rows) (hv : v ∈ dag.operators) (hop : dag.op v = op)

include h hv hop

/-- The input of an operator with one port. -/
theorem TypedExecution.input (hports : op.numInPorts = 1) :
    ∃ u ∈ dag.operators, dag.predecessorOn v 0 = some u ∧ dag.predecessor v = some u ∧
      op.TypeChecks [width u] (width v) ∧ op.Emits [rows u] (rows v) := by
  subst hop
  obtain ⟨us, hus, hemits⟩ := h.executes v hv
  obtain ⟨hops, htypes⟩ := h.checked.of_predecessors hv hus
  obtain ⟨u, rfl, hu⟩ := Dag.predecessors_one hus hports
  have hdeg : dag.inDegree v = 1 := by rw [h.checked.inDegree v hv, hports]
  exact ⟨u, hops u mem_cons_self, hu, Dag.predecessor_eq_of_inDegree hdeg hu, htypes, hemits⟩

/-- The inputs of an operator with two ports. -/
theorem TypedExecution.inputs (hports : op.numInPorts = 2) :
    ∃ l ∈ dag.operators, ∃ r ∈ dag.operators, dag.predecessorOn v 0 = some l ∧ dag.predecessorOn v 1 = some r ∧
      op.TypeChecks [width l, width r] (width v) ∧ op.Emits [rows l, rows r] (rows v) := by
  subst hop
  obtain ⟨us, hus, hemits⟩ := h.executes v hv
  obtain ⟨hops, htypes⟩ := h.checked.of_predecessors hv hus
  obtain ⟨l, r, rfl, hl, hr⟩ := Dag.predecessors_two hus hports
  exact ⟨l, hops l (by simp), r, hops r (by simp), hl, hr, htypes, hemits⟩

end

/-- An execution, with the fields that the operators have. -/
structure Execution (dag : Dag (Operator α)) (width : ℕ → ℕ) (rows : ℕ → List (Tuple α))
    (tuples : Tuples) : Prop extends TypedExecution dag width rows where
  fields : ∀ v ∈ dag.operators, (tuples v).length = width v
  ids : IdsSound dag rows tuples

theorem visitFields_good [Comparable α] {tuples : Tuples} {v : ℕ} (hrun : Execution dag width rows tuples) (hv : v ∈ dag.operators)
    (hins : ∀ u, (∃ f ∈ dag.flows, f.target.op = v ∧ f.source.op = u) → GoodFields (rows u) (tuples u))
    (hfields : GoodFields (rows v) (tuples v)) (hallowed : MarksAllowed dag rows tuples v) :
    Marks (rows v) (tuples v) (visitFields dag tuples v) := by
  have hwidth := hrun.fields v hv
  unfold visitFields
  unfold MarksAllowed at hallowed
  cases hop : dag.op v with
  | cartesian =>
    obtain ⟨l, hl, r, hr, hleft, hright, (hsum : width v = width l + width r), hemits⟩ := hrun.inputs hv hop rfl
    have hout : rows v = cartesianRows (· ++ ·) (rows l) (rows r) := hemits
    simp only [hleft, hright, map_some, bind_eq_bind, bind_some]
    rw [hout] at hfields ⊢
    refine visitCartesian_good ?_ ?_ (hins r (Dag.exists_flow_of_predecessorOn hright)) hfields
    · exact fun t ht => (hrun.typed l hl t ht).trans (hrun.fields l hl).symm
    · rw [hwidth, hrun.fields l hl, hrun.fields r hr, hsum]
  | columnScan addIndex =>
    obtain ⟨u, hu, -, hpred, ⟨-, (hsum : width v = addIndex.toNat + width u)⟩, scanned, hscanned, hout⟩ :=
      hrun.input hv hop rfl
    rw [hop] at hallowed
    refine visitScan_good addIndex (by omega) hfields ?_
    rintro rfl
    rw [hout]
    exact column_scan_increases (hallowed rfl u hpred) columnLookup_index hscanned
  | rowScan addIndex =>
    obtain ⟨u, hu, -, hpred, ⟨-, (hle : addIndex.toNat ≤ width v)⟩, hemits⟩ := hrun.input hv hop rfl
    rw [hop] at hallowed
    refine visitScan_good addIndex (by omega) hfields ?_
    rintro rfl
    have hout : rows v = (rows u).flatMap (scannedRows true) := hemits
    rw [hout]
    exact column_scan_increases (hallowed rfl u hpred) rowLookup_index
      fun t _ => scanRows_scannedRows true t
  | filter function =>
    obtain ⟨u, hu, -, hpred, (hsame : width v = width u), (hout : rows v = (rows u).filter function)⟩ :=
      hrun.input hv hop rfl
    simp only [hpred, map_some, bind_eq_bind, bind_some]
    rw [hout] at hfields ⊢
    refine visitFilter_good ?_ (hins u (Dag.exists_flow_of_predecessor hpred)) hfields
    rw [hwidth, hrun.fields u hu, hsame]
  | join numKeys =>
    obtain ⟨l, hl, r, hr, hleft, hright, htypes, hemits⟩ := hrun.inputs hv hop rfl
    rw [hop] at hallowed
    obtain ⟨hkeys, hkeysLeft, hkeysRight, hsum⟩ : 1 ≤ numKeys ∧ numKeys ≤ width l ∧
      numKeys ≤ width r ∧ width v = width l + (width r - numKeys) := htypes
    have hout : rows v = joinTuples numKeys (rows l) (rows r) := hemits
    simp only [hleft, hright, map_some, bind_eq_bind, bind_some]
    rw [hout] at hfields ⊢
    have hlwidth := hrun.fields l hl
    have hrwidth := hrun.fields r hr
    exact visitJoin_good (fun t ht => (hrun.typed l hl t ht).trans hlwidth.symm) hkeys
      (by omega) (by omega) (by omega) (hins l (Dag.exists_flow_of_predecessorOn hleft))
      (hins r (Dag.exists_flow_of_predecessorOn hright)) hfields (hallowed r hright)
  | map function =>
    obtain ⟨u, hu, -, hpred, -, -⟩ := hrun.input hv hop rfl
    simp only [hpred, map_some, bind_eq_bind, bind_some]
    exact visitMap_good hfields (hins u (Dag.exists_flow_of_predecessor hpred))
      (hrun.ids v hv function u hop hpred)
  | range =>
    obtain ⟨u, hu, -, hpred, ⟨-, (hone : width v = 1)⟩, vs, hvs, hout⟩ := hrun.input hv hop rfl
    rw [hop] at hallowed
    obtain ⟨hunique, hsorted⟩ := increasing_holds (rangeValues_increase (hallowed u hpred) hvs)
    refine marks_of_getElem? _ (fun i => getElem?_map) (fun _ _ => rfl) fun i field hfield => ?_
    -- the tuple has one field
    obtain rfl : i = 0 := by
      have := (List.getElem?_eq_some_iff.mp hfield).1
      omega
    have hcol : column (rows v) 0 = vs := by
      rw [hout, column, List.map_map]
      exact map_id vs
    have hgood := hfields 0 field hfield
    rw [hcol] at hgood ⊢
    exact (hgood.addProperty hunique).addProperty hsorted
  | reduceByKey function =>
    obtain ⟨u, hu, -, hpred, ⟨hpos, (hsame : width v = width u)⟩, order, hout⟩ := hrun.input hv hop rfl
    refine updateField_good hfields (by omega) (sound_addProperty ?_)
    show Distinct (column (rows v) 0)
    rw [hout]
    exact distinct_column_reduceTuples order function (rows u)
  | reduceByKeyGrouped function =>
    obtain ⟨u, hu, -, hpred, ⟨hpos, (hsame : width v = width u)⟩,
      (hout : rows v = reduceGroupedTuples function (rows u))⟩ := hrun.input hv hop rfl
    rw [hop] at hallowed
    have hulength := hrun.fields u hu
    obtain ⟨key, hkey⟩ : ∃ key, (tuples u)[0]? = some key := ⟨_, getElem?_eq_getElem (by omega)⟩
    simp only [hpred, hkey, map_some, bind_eq_bind, bind_some]
    obtain ⟨hsub, hdist⟩ := column_reduceGroupedTuples function (rows u)
    rw [← hout] at hsub hdist
    refine updateField_good hfields (by omega) ⟨fun _ => rfl, fun field hfield => ?_⟩
    have hinp := hins u (Dag.exists_flow_of_predecessor hpred) 0 key hkey
    exact (hfield.copyProperties fun q hq => (hinp q hq).sublist hsub).addProperty
      (hdist (hallowed u hpred))
  | other ports emits => exact .self hfields

/-- What holds after some of the visits: ids are as before, the marks on visited operators hold, and the
    others have none yet. -/
structure VisitedInv (rows : ℕ → List (Tuple α)) (tuples₀ : Tuples) (done : List ℕ) (tuples : Tuples) : Prop where
  ids : ∀ v, SameIds (tuples₀ v) (tuples v)
  good : ∀ v ∈ done, GoodFields (rows v) (tuples v)
  clear : ∀ v, v ∉ done → ∀ field ∈ tuples v, field.properties = ∅

theorem Execution.of_sameIds {tuples0 tuples : Tuples} (hrun : Execution dag width rows tuples0)
    (hids : ∀ v, SameIds (tuples0 v) (tuples v)) : Execution dag width rows tuples := by
  refine ⟨hrun.toTypedExecution, fun v hv => ?_, ?_⟩
  · rw [(hids v).length_eq, hrun.fields v hv]
  · intro v hv function u hop hpred i j a b ha hb hab
    obtain ⟨a0, ha0, hida⟩ := (hids v).exists_getElem? ha
    obtain ⟨b0, hb0, hidb⟩ := (hids u).exists_getElem? hb
    exact hrun.ids v hv function u hop hpred i j a0 b0 ha0 hb0 (by rw [hida, hidb, hab])

theorem VisitedInv.visit [Comparable α] {tuples0 tuples : Tuples} {done : List ℕ} {v : ℕ}
    (hrun : Execution dag width rows tuples0) (h : VisitedInv rows tuples0 done tuples)
    (hv : v ∈ dag.operators) (hnew : v ∉ done) (hfirst : ∀ f ∈ dag.flows, f.target.op = v → f.source.op ∈ done)
    (hallowed : MarksAllowed dag rows tuples v) :
    ∃ tuples', Optimize.visit dag tuples v = some tuples' ∧ VisitedInv rows tuples0 (done ++ [v]) tuples' := by
  obtain ⟨fields', hvisit, hids, hgood⟩ := visitFields_good (hrun.of_sameIds h.ids) hv
    (fun u ⟨f, hf, htgt, hsrc⟩ => h.good u (hsrc ▸ hfirst f hf htgt))
    (goodFields_of_clear (h.clear v hnew)) hallowed
  refine ⟨update tuples v fields', by rw [Optimize.visit, hvisit]; rfl, ?_, ?_, ?_⟩
  · intro w
    by_cases hw : w = v
    · subst hw
      rw [update_self]
      exact hids.trans (h.ids w)
    · rw [update_of_ne hw]
      exact h.ids w
  · intro w hw
    by_cases hwv : w = v
    · subst hwv
      rwa [update_self]
    · rw [update_of_ne hwv]
      refine h.good w ((mem_append.mp hw).resolve_right fun hmem => hwv ?_)
      exact mem_singleton.mp hmem
  · intro w hw
    have hwv : w ≠ v := fun heq => hw (mem_append_right _ (heq ▸ mem_singleton_self v))
    rw [update_of_ne hwv]
    exact h.clear w fun hmem => hw (mem_append_left _ hmem)

/-- The marks of every visit are justified in the state before it. -/
def AllMarksAllowed (dag : Dag (Operator α)) (rows : ℕ → List (Tuple α)) (order : List ℕ) (tuples : Tuples) : Prop :=
  ∀ done v rest, order = done ++ v :: rest → ∀ tuples',
    done.foldlM (visit dag) (fun v => (tuples v).map Field.clearProperties) = some tuples' →
      MarksAllowed dag rows tuples' v

theorem foldlM_visit [Comparable α] {tuples : Tuples} {order : List ℕ} (hrun : Execution dag width rows tuples)
    (horder : dag.IsVisitOrder order) (hallowed : AllMarksAllowed dag rows order tuples)
    (done rest : List ℕ) (hdone : order = done ++ rest) :
    ∃ tuples', done.foldlM (visit dag) (fun v => (tuples v).map Field.clearProperties) = some tuples' ∧
      VisitedInv rows tuples done tuples' := by
  induction done using reverseRecOn generalizing rest with
  | nil =>
    refine ⟨_, rfl, fun v => ?_, fun v hv => absurd hv not_mem_nil, fun v _ field hfield => ?_⟩
    · unfold SameIds
      rw [List.map_map]
      rfl
    · obtain ⟨old, -, rfl⟩ := mem_map.mp hfield
      rfl
  | append_singleton done v ih =>
    rw [append_assoc, singleton_append] at hdone
    obtain ⟨tuples1, htuples1, hinv⟩ := ih (v :: rest) hdone
    have hnd : (done ++ v :: rest).Nodup := hdone ▸ horder.perm.nodup_iff.mpr hrun.checked.nodup
    have hnew : v ∉ done := fun hmem =>
      (nodup_append.mp hnd).2.2 v hmem v mem_cons_self rfl
    have hv : v ∈ dag.operators := horder.perm.mem_iff.mp (hdone ▸ by simp)
    obtain ⟨tuples', hvisit, hinv'⟩ := hinv.visit hrun hv hnew
      (horder.predecessorsFirst done v rest hdone) (hallowed done v rest hdone tuples1 htuples1)
    refine ⟨tuples', ?_, hinv'⟩
    rw [foldlM_append, htuples1]
    simpa using hvisit

/-- Every mark holds for the tuples that its operator emits. -/
def MarksHold (dag : Dag (Operator α)) (rows : ℕ → List (Tuple α)) (tuples : Tuples) : Prop :=
  ∀ v ∈ dag.operators, ∀ (i : ℕ) (field : Field), (tuples v)[i]? = some field →
    ∀ p ∈ field.properties, p.Holds (column (rows v) i)

/-- **The marks are sound.**  If no visit sets an unjustified mark, the pass accesses existing fields only,
    and every mark it leaves holds for the tuples that the operator emits. -/
theorem determineSortedness_sound [Comparable α] {tuples : Tuples} {order : List ℕ}
    (hrun : Execution dag width rows tuples) (horder : dag.IsVisitOrder order)
    (hallowed : AllMarksAllowed dag rows order tuples) :
    ∃ tuples', determineSortedness dag order tuples = some tuples' ∧ MarksHold dag rows tuples' := by
  obtain ⟨tuples₁, htuples₁, hinv⟩ := foldlM_visit hrun horder hallowed order [] (by simp)
  refine ⟨fun v => (tuples₁ v).map implyGrouped, by rw [determineSortedness, htuples₁]; rfl,
    fun v hv i field hfield p hp => ?_⟩
  rw [getElem?_map] at hfield
  obtain ⟨old, hold, rfl⟩ := Option.map_eq_some_iff.mp hfield
  exact ((hinv.good v (horder.perm.mem_iff.mpr hv) i old hold).implyGrouped p hp).holds

end Pass

/-! ### Joins with two keys

A scan adds an index to the values 5, 6, 5, a map doubles the index, and a join matches these rows with
the pairs of equal numbers: `joinPlan`.  The map's first two fields are unique.  The join marks the second
one at the place it has behind one key; with two keys that is the place of the value. -/

section JoinPlan

def joinPlan (numKeys : ℕ) : Dag (Operator Atom) where
  operators := [0, 1, 2, 3, 4]
  op
    | 0 => .other 0 fun _ out => out = [[ownArray [[.long 5], [.long 6], [.long 5]]]]
    | 1 => .rowScan true
    | 2 => .map fun t => t.v0 :: t
    | 3 => .other 0 fun _ out => out = [[.long 0, .long 0], [.long 1, .long 1], [.long 2, .long 2]]
    | _ => .join numKeys
  flows := [⟨⟨0, 0⟩, ⟨1, 0⟩⟩, ⟨⟨1, 0⟩, ⟨2, 0⟩⟩, ⟨⟨3, 0⟩, ⟨4, 0⟩⟩, ⟨⟨2, 0⟩, ⟨4, 1⟩⟩]
  outputs := [⟨4, 0⟩]

def joinPlanWidth (numKeys : ℕ) : ℕ → ℕ
  | 0 => 1
  | 1 => 2
  | 2 => 3
  | 3 => 2
  | _ => 5 - numKeys

def joinPlanRows (numKeys : ℕ) : ℕ → List (Tuple Atom)
  | 0 => [[ownArray [[.long 5], [.long 6], [.long 5]]]]
  | 1 => [[.long 0, .long 5], [.long 1, .long 6], [.long 2, .long 5]]
  | 2 => [[.long 0, .long 0, .long 5], [.long 1, .long 1, .long 6], [.long 2, .long 2, .long 5]]
  | 3 => [[.long 0, .long 0], [.long 1, .long 1], [.long 2, .long 2]]
  | _ => joinTuples numKeys [[.long 0, .long 0], [.long 1, .long 1], [.long 2, .long 2]]
      [[.long 0, .long 0, .long 5], [.long 1, .long 1, .long 6], [.long 2, .long 2, .long 5]]

/-- The index is attribute 1 and the value attribute 2. -/
def joinPlanTuples (numKeys : ℕ) : Tuples
  | 0 => [⟨0, ∅⟩]
  | 1 => [⟨1, ∅⟩, ⟨2, ∅⟩]
  | 2 => [⟨1, ∅⟩, ⟨1, ∅⟩, ⟨2, ∅⟩]
  | 3 => [⟨3, ∅⟩, ⟨4, ∅⟩]
  | _ => replicate (5 - numKeys) ⟨5, ∅⟩

theorem joinPlan_execution (hkeys : numKeys = 1 ∨ numKeys = 2) :
    Execution (joinPlan numKeys) (joinPlanWidth numKeys) (joinPlanRows numKeys) (joinPlanTuples numKeys) := by
  refine ⟨⟨⟨by simp only [joinPlan]; decide, fun v hv => ?_, fun v hv => ?_⟩, fun v hv => ?_, fun v hv => ?_⟩,
    fun v hv => ?_, fun v hv => ?_⟩ <;>
    simp only [joinPlan, mem_cons, not_mem_nil, or_false] at hv
  · rcases hv with rfl | rfl | rfl | rfl | rfl <;> rfl
  · rcases hv with rfl | rfl | rfl | rfl | rfl
    · exact ⟨[], rfl, by simp, trivial⟩
    · exact ⟨[0], rfl, by simp [joinPlan], rfl, Nat.le_succ 1⟩
    · exact ⟨[1], rfl, by simp [joinPlan], trivial⟩
    · exact ⟨[], rfl, by simp, trivial⟩
    · refine ⟨[3, 2], rfl, by simp [joinPlan], ?_⟩
      show 1 ≤ numKeys ∧ numKeys ≤ 2 ∧ numKeys ≤ 3 ∧ 5 - numKeys = 2 + (3 - numKeys)
      omega
  · rcases hv with rfl | rfl | rfl | rfl | rfl <;> exact ⟨_, rfl, rfl⟩
  · rcases hkeys with rfl | rfl <;> rcases hv with rfl | rfl | rfl | rfl | rfl <;> decide
  · rcases hv with rfl | rfl | rfl | rfl | rfl <;> simp [joinPlanTuples, joinPlanWidth]
  · -- the only map is operator 2, over the scan
    intro function u hop hpred i j a b ha hb hid
    obtain rfl : v = 2 := by
      rcases hv with rfl | rfl | rfl | rfl | rfl <;> first | rfl | cases hop
    obtain rfl : u = 1 := (some.inj hpred).symm
    match i, j with
    | 0, 0 | 1, 0 | 2, 1 => rfl
    | 0, 1 | 1, 1 | 2, 0 =>
      cases ha
      cases hb
      exact absurd hid (by decide)
    | _ + 3, _ => simp [joinPlanTuples] at ha
    | _, _ + 2 => simp [joinPlanTuples] at hb

theorem joinPlan_isVisitOrder (numKeys : ℕ) : (joinPlan numKeys).IsVisitOrder [0, 1, 2, 3, 4] :=
  Dag.isVisitOrder_of_idxOf (List.Perm.refl _) (by simp only [joinPlan]; decide)

theorem determineSortedness_sound_oneKey :
    ∃ tuples', determineSortedness (joinPlan 1) [0, 1, 2, 3, 4] (joinPlanTuples 1) = some tuples' ∧
      MarksHold (joinPlan 1) (joinPlanRows 1) tuples' := by
  refine determineSortedness_sound (joinPlan_execution (.inl rfl)) (joinPlan_isVisitOrder 1) ?_
  intro done v rest horder tuples' _
  have hv : v ∈ [0, 1, 2, 3, 4] := horder ▸ by simp
  simp only [mem_cons, not_mem_nil, or_false] at hv
  rcases hv with rfl | rfl | rfl | rfl | rfl
  · trivial
  · intro _ u hu
    obtain rfl : u = 0 := (Option.some.inj hu).symm
    exact pairwise_singleton _ _
  · trivial
  · trivial
  · exact fun _ _ => .inl rfl

/-- **A join with two keys marks the wrong field.** -/
theorem determineSortedness_marksUngrouped :
    Execution (joinPlan 2) (joinPlanWidth 2) (joinPlanRows 2) (joinPlanTuples 2) ∧
      (joinPlan 2).IsVisitOrder [0, 1, 2, 3, 4] ∧
        ¬ ∃ tuples', determineSortedness (joinPlan 2) [0, 1, 2, 3, 4] (joinPlanTuples 2) = some tuples' ∧
          MarksHold (joinPlan 2) (joinPlanRows 2) tuples' := by
  refine ⟨joinPlan_execution (.inr rfl), joinPlan_isVisitOrder 2, ?_⟩
  rintro ⟨tuples', hpass, hhold⟩
  have hmarked : (determineSortedness (joinPlan 2) [0, 1, 2, 3, 4] (joinPlanTuples 2)).map
      (fun t => ((t 4)[2]?).map (Field.has .grouped)) = some (some true) := by decide
  rw [hpass] at hmarked
  obtain ⟨field, hfield, hmark⟩ := Option.map_eq_some_iff.mp (Option.some.inj hmarked)
  have hgrpd : Grouped (column (joinPlanRows 2 4) 2) :=
    hhold 4 (by simp [joinPlan]) 2 field hfield .grouped (has_iff.mp hmark)
  have hvals : column (joinPlanRows 2 4) 2 = [.long 5, .long 6, .long 5] := rfl
  rw [hvals] at hgrpd
  exact absurd (hgrpd _ _ _ (List.Sublist.refl _) rfl) (by decide)

end JoinPlan

end Jitq.Optimize

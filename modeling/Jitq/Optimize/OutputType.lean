import Jitq.Dag.Nested
import Jitq.Lib.Checked

namespace Jitq.Optimize

open Checked

/-! # Output types

`ComputeOutputType`: the type of the tuples that an operator produces, from the types of its predecessors,
of its inner DAG, and for some classes from the type that it has already.

* `computeOutputType` — the function, one case per class;
* `computeOutputType_congr` — what it depends on;
* `computeOutputType_again` — an operator that has the computed type keeps it. -/

/-- What ends the pass: an `invalid_argument`, or an `assert` that fails.  Reading a field that a tuple does
    not have, or a type that is not set, counts as the latter. -/
inductive TypeError
  | invalidArgument (text : String)
  | invalidInput (text : String) (found : TupleType)
  | fewerFields (numInputFields fieldAccessed : ℕ)
  | wrongOutputType (name : String) (id : ℕ) (found expected : TupleType)
  | assertFailed
  deriving DecidableEq

abbrev Typed (α : Type) := Except TypeError α

def asserted {α : Type} : Option α → Typed α
  | some a => .ok a
  | none => .error .assertFailed

/-- Throws unless the condition holds. -/
def require (condition : Bool) (error : TypeError) : Typed Unit := if condition then .ok () else .error error

section

variable {n : ℕ} (dag : OpDag (NestedDag n)) (v : ℕ)

/-- `op->tuple->type`. -/
def ownType : Typed TupleType := asserted (dag.op v).operator.tuple

/-- `dag->predecessor(op)->tuple->type`. -/
def predecessorType : Typed TupleType := do
  let pred ← asserted (dag.graph.predecessor v)
  ownType dag pred

/-- `dag->predecessor(op, i)->tuple->type`. -/
def predecessorTypeOn (i : ℕ) : Typed TupleType := do
  let pred ← asserted (dag.graph.predecessorOn v i)
  ownType dag pred

/-- `dag->inner_dag(op)->output().op->tuple->type`. -/
def innerOutputType : Typed TupleType := do
  let inner ← asserted (dag.op v).innerDag
  let output ← asserted inner.output
  asserted (inner.operator output.op).tuple

end

/-! ### The checks of the classes -/

/-- The checks of the joins on the first field: both inputs have one, and it is atomic. -/
def checkFirstFields (emptyLeft emptyRight arrayLeft arrayRight : String) (left right : TupleType) : Typed Unit := do
  require (!left.isEmpty) (.invalidArgument emptyLeft)
  require (!right.isEmpty) (.invalidArgument emptyRight)
  require (left.head?.all FieldType.isAtomic) (.invalidArgument arrayLeft)
  require (right.head?.all FieldType.isAtomic) (.invalidArgument arrayRight)

def checkAntiJoin : TupleType → TupleType → Typed Unit :=
  checkFirstFields "Left anti-join input cannot be empty tuple" "Right anti-join input cannot be empty tuple"
    "First field of left input of anti-join must be Atomic"
    "First field of right input of anti-join must be Atomic"

def checkSemiJoin : TupleType → TupleType → Typed Unit :=
  checkFirstFields "Left semijoin input cannot be empty tuple" "Right semijoin input cannot be empty tuple"
    "First field of left input of SemiJoin must be Atomic"
    "First field of right input of SemiJoin must be Atomic"

/-- The `num_keys` keys of a join; a negative number of keys would move `begin()` to the left. -/
def checkJoin (numKeys : ℤ) (left right : TupleType) : Typed Unit := do
  require (!left.isEmpty) (.invalidArgument "Left join input cannot be empty tuple")
  require (!right.isEmpty) (.invalidArgument "Right join input cannot be empty tuple")
  require (0 ≤ numKeys) .assertFailed
  (List.range numKeys.toNat).forM fun i => do
    let leftKey ← asserted left[i]?
    let rightKey ← asserted right[i]?
    require leftKey.isAtomic (.invalidArgument "Each key of left input of Join must be Atomic")
    require rightKey.isAtomic (.invalidArgument "Each key of right input of Join must be Atomic")

/-- The check of the reductions on the key. -/
def checkKey (text : String) (input : TupleType) : Typed Unit := do
  let key ← asserted input[0]?
  require key.isAtomic (.invalidArgument text)

/-- The element of a column that `ColumnScan` reads. -/
def columnElement : FieldType → Typed FieldType
  | .atomic _ => .error (.invalidArgument "Input of ColumnScan operator must be a tuple of arrays")
  | .array layout numDimensions tupleType => do
    require (numDimensions = 1) .assertFailed
    require (layout = .C) .assertFailed
    match tupleType with
    | [field] => .ok field
    | _ => .error (.invalidArgument "Input of ColumnScan operator must be a tuple of arrays of atomics")

def columnScanType (addIndex : Bool) (input : TupleType) : Typed TupleType := do
  require (!input.isEmpty) (.invalidArgument "Input of ColumnScan operator must have at least onefield")
  let fields ← input.mapM columnElement
  .ok (if addIndex then FieldType.long :: fields else fields)

def rowScanType (addIndex : Bool) : TupleType → Typed TupleType
  | [.array layout numDimensions tupleType] => do
    require (numDimensions = 1) .assertFailed
    require (layout = .C) .assertFailed
    .ok (if addIndex then FieldType.long :: tupleType else tupleType)
  | [.atomic _] => .error (.invalidArgument "Input of RowScan operator must have an Array field")
  | _ => .error (.invalidArgument "Input of RowScan operator must have a single field")

def exchangeTcpType : TupleType → Typed TupleType
  | partitionId :: first :: rest => do
    require (partitionId = .long) (.invalidArgument "First field of ExchangeLambda must be 'long'")
    require ((first :: rest).all fun type => !type.isAtomic)
      (.invalidArgument "Tail fields of ExchangeLambda must be arrays")
    .ok (first :: rest)
  | _ => .error (.invalidArgument "Input of ExchangeLambda must have at least two fields.")

variable (input : TupleType)

def groupByType : Typed TupleType := do
  let partitionId ← asserted input[0]?
  require (partitionId = .long) (.invalidArgument "First field of GroupBy must be 'long'")
  let element ← asserted input[1]?
  .ok [partitionId, .vector [element]]

def expandPatternType (left right : TupleType) : Typed TupleType := do
  require (left.length = 1) (.invalidArgument "Left ExpandPattern input must have one field")
  require (right.length = 1) (.invalidArgument "Right ExpandPattern input must have one field")
  require (left = [.string]) (.invalidArgument "Pattern input (left) of ExpandPattern must be a string")
  require (right = [.long]) (.invalidArgument "Parameter input (right) of ExpandPattern must be a long")
  .ok [.string]

/-- The description of a file that is written or exchanged: its path and its slices. -/
def fileType : TupleType := [.string, .long, .long, .long]

def checkParquetColumn : FieldType → Typed Unit
  | .atomic _ => .error (.invalidInput "Input of MaterializeParquet must be tuple of Arrays, found: " input)
  | .array _ _ [.atomic _] => .ok ()
  | .array .. =>
    .error (.invalidInput "Input of MaterializeParquet must be tuple of Arrays of Atomics, found: " input)

/-- `conf` is read with `at(0)`, which throws `out_of_range`. -/
def materializeParquetType (conf : TupleType) (mainInput : Typed TupleType) : Typed TupleType := do
  let confType ← asserted conf[0]?
  require (confType = .string) (.invalidInput "Configuration of MaterializeParquet must be string, found: " conf)
  let input ← mainInput
  input.forM (checkParquetColumn input)
  .ok fileType

def checkParquetScan : Typed Unit := do
  require (input.length = 4) (.invalidArgument
    "Input of ParquetScan needs to have 4 fields (file_path, slice_from, slice_to, num_slices).")
  require (input.head? = some .string) (.invalidArgument "file_path input of ParquetScan needs to be 'std::string'.")
  require (input.tail.all fun type => type = .long)
    (.invalidArgument "Slice descriptor inputs of ParquetScan need to be 'long'.")

def projectionType (positions : List ℕ) (input : TupleType) : Typed TupleType :=
  positions.mapM fun pos =>
    match input[pos]? with
    | some field => .ok field
    | none => .error (.fewerFields input.length pos)

def rangeType : Typed TupleType := do
  let element ← asserted input[0]?
  require (input.length = 3) (.invalidArgument "Input of Range operator must be a triple")
  require (input.all fun type => type = element)
    (.invalidArgument "Input of Range operator must be a homogeneous triple")
  require element.isAtomic (.invalidArgument "Input of Range operator must be a triple of Atomics")
  .ok [element]

/-! ### The visitor -/

section

variable {n : ℕ}

/-- `ComputeOutputType(dag, op)`. -/
def computeOutputType (dag : OpDag (NestedDag n)) (v : ℕ) : Typed TupleType :=
  match (dag.op v).operator.cls with
  | .antiJoin | .antiJoinPredicated => do
    let left ← predecessorTypeOn dag v 0
    let right ← predecessorTypeOn dag v 1
    checkAntiJoin left right
    .ok left
  | .semiJoin => do
    let left ← predecessorTypeOn dag v 0
    let right ← predecessorTypeOn dag v 1
    checkSemiJoin left right
    .ok left
  | .join numKeys => do
    let left ← predecessorTypeOn dag v 0
    let right ← predecessorTypeOn dag v 1
    checkJoin numKeys left right
    .ok (left ++ right.drop numKeys.toNat)
  | .cartesian => do
    let left ← predecessorTypeOn dag v 0
    let right ← predecessorTypeOn dag v 1
    .ok (left ++ right)
  | .expandPattern => do
    let left ← predecessorTypeOn dag v 0
    let right ← predecessorTypeOn dag v 1
    expandPatternType left right
  | .materializeParquet _ => do
    let conf ← predecessorTypeOn dag v 1
    materializeParquetType conf (predecessorTypeOn dag v 0)
  | .partition _ => do
    let conf ← predecessorTypeOn dag v 1
    require (conf = [.long]) (.invalidInput "Input of Partition must be single long, found: " conf)
    let element ← predecessorTypeOn dag v 0
    .ok [.long, .vector element]
  | .zip numInputs => do
    let types ← (List.range numInputs).mapM (predecessorTypeOn dag v)
    .ok types.flatten
  | .splitColumnData | .splitRange | .splitRowData => predecessorTypeOn dag v 0
  | .assertCorrectOpenNextClose | .broadcast | .ensureSingleTuple | .exchange | .filter
  | .partitionedExchange .. | .reduce | .sort | .topK _ => predecessorType dag v
  | .columnScan addIndex => do
    let input ← predecessorType dag v
    columnScanType addIndex input
  | .rowScan addIndex => do
    let input ← predecessorType dag v
    rowScanType addIndex input
  | .exchangeTcp .. => do
    let input ← predecessorType dag v
    exchangeTcpType input
  | .groupBy => do
    let input ← predecessorType dag v
    groupByType input
  | .materializeColumnChunks => do
    let input ← predecessorType dag v
    .ok (input.map fun type => .vector [type])
  | .materializeRowVector => do
    let element ← predecessorType dag v
    .ok [.vector element]
  | .projection positions => do
    let input ← predecessorType dag v
    projectionType positions input
  | .range => do
    let input ← predecessorType dag v
    rangeType input
  | .reduceByKey => do
    let input ← predecessorType dag v
    checkKey "First field of ReduceByKey must be Atomic" input
    .ok input
  | .reduceByKeyGrouped => do
    let input ← predecessorType dag v
    checkKey "First field of ReduceByKeyGrouped must be Atomic" input
    .ok input
  | .reduceByIndex .. => do
    let input ← predecessorType dag v
    checkKey "First field of ReduceByIndex must be Atomic" input
    .ok input
  | .parquetScan .. => do
    let input ← predecessorType dag v
    checkParquetScan input
    ownType dag v
  | .exchangeS3 .. => .ok fileType
  | .compiledPipeline .. | .constantTuple _ | .map | .mapCpp _ | .parameterLookup => ownType dag v
  | .concurrentExecuteProcess => do
    let input ← predecessorTypeOn dag v 0
    require (input.all FieldType.isAtomic)
      (.invalidInput "Input of ConcurrentExecuteProcess cannot contain Arrays, found: " input)
    innerOutputType dag v
  | .concurrentExecute .. | .concurrentExecuteLambda | .nestedMap | .parallelMap | .parallelMapOmp
  | .pipeline _ => innerOutputType dag v

section

variable {dag dag' : OpDag (NestedDag n)} {v : ℕ}
    (hcls : (dag'.op v).operator.cls = (dag.op v).operator.cls)
    (hpred : predecessorType dag' v = predecessorType dag v)
    (hpredOn : predecessorTypeOn dag' v = predecessorTypeOn dag v)
    (hinner : innerOutputType dag' v = innerOutputType dag v)

include hcls hpred hpredOn hinner

/-- The output type depends on the class, the types of the predecessors and the inner DAG, and on the type
    that the operator has. -/
theorem computeOutputType_congr (hown : ownType dag' v = ownType dag v) :
    computeOutputType dag' v = computeOutputType dag v := by
  unfold computeOutputType
  rw [hcls, hpred, hpredOn, hinner, hown]

/-- An operator that has the computed type keeps it. -/
theorem computeOutputType_again {type : TupleType} (hown : ownType dag' v = .ok type)
    (h : computeOutputType dag v = .ok type) : computeOutputType dag' v = .ok type := by
  unfold computeOutputType at h ⊢
  rw [hcls, hpred, hpredOn, hinner, hown]
  generalize (dag.op v).operator.cls = cls at h ⊢
  cases cls with
  | parquetScan =>
    -- the type is kept, but only after the input has been checked
    obtain ⟨input, hinp, hrest⟩ := bind_eq_ok.mp h
    obtain ⟨checked, hchecked, -⟩ := bind_eq_ok.mp hrest
    exact bind_eq_ok.mpr ⟨input, hinp, bind_eq_ok.mpr ⟨checked, hchecked, rfl⟩⟩
  | _ => first | exact h | rfl

end

end

end Jitq.Optimize

import Mathlib.Data.List.Basic
import Mathlib.Data.Int.Notation

namespace Jitq

/-! # DAG operators — types, parameters and ports

The operators of a plan as the optimizer and the code generator see them: `DAGOperator` has an id, the
type of the tuples it produces, the LLVM IR of its function, and the parameters of its class. -/

/-! ### Types -/

inductive ArrayLayout
  | C
  | F
  deriving DecidableEq

/-- The type of a field: an `Atomic`, named as in C++, or an `Array` of tuples. -/
inductive FieldType
  | atomic (type : String)
  | array (layout : ArrayLayout) (numDimensions : ℕ) (tupleType : List FieldType)

/-- `dag::type::Tuple`. -/
abbrev TupleType := List FieldType

namespace FieldType

mutual

/-- Equality of types.  The registry of the program holds one object per type, so that it compares
    pointers. -/
def decEq : (a b : FieldType) → Decidable (a = b)
  | atomic a, atomic b =>
    if h : a = b then .isTrue (h ▸ rfl) else .isFalse fun e => h (FieldType.atomic.inj e)
  | array l₁ n₁ t₁, array l₂ n₂ t₂ =>
    if hl : l₁ = l₂ then
      if hn : n₁ = n₂ then
        match decEqTuple t₁ t₂ with
        | .isTrue ht => .isTrue (hl ▸ hn ▸ ht ▸ rfl)
        | .isFalse ht => .isFalse fun e => ht (FieldType.array.inj e).2.2
      else .isFalse fun e => hn (FieldType.array.inj e).2.1
    else .isFalse fun e => hl (FieldType.array.inj e).1
  | atomic _, array .. => .isFalse nofun
  | array .., atomic _ => .isFalse nofun

def decEqTuple : (a b : List FieldType) → Decidable (a = b)
  | [], [] => .isTrue rfl
  | [], _ :: _ => .isFalse nofun
  | _ :: _, [] => .isFalse nofun
  | x :: xs, y :: ys =>
    match decEq x y, decEqTuple xs ys with
    | .isTrue h₁, .isTrue h₂ => .isTrue (h₁ ▸ h₂ ▸ rfl)
    | .isFalse h, _ => .isFalse fun e => h (List.cons.inj e).1
    | _, .isFalse h => .isFalse fun e => h (List.cons.inj e).2

end

instance : DecidableEq FieldType := decEq

def isAtomic : FieldType → Bool
  | atomic _ => true
  | array .. => false

/-- `Atomic::MakeAtomic("long")`. -/
def long : FieldType := atomic "long"

def string : FieldType := atomic "std::string"

/-- `Array::MakeArray(type, ArrayLayout::kC, 1)`. -/
def vector (tupleType : TupleType) : FieldType := array .C 1 tupleType

end FieldType

/-! ### Operator classes -/

/-- The classes derived from `DAGOperator`, with their parameters.  `column_indexes` and
    `column_range_filters` of a Parquet scan, which have the same length, are one list. -/
inductive OperatorClass
  | antiJoin
  | antiJoinPredicated
  | assertCorrectOpenNextClose
  | broadcast
  | cartesian
  | columnScan (addIndex : Bool)
  | compiledPipeline (numInputs : ℕ) (libraryName functionName : String)
  | concurrentExecute (numInputs numOutputs : ℕ)
  | concurrentExecuteLambda
  | concurrentExecuteProcess
  | constantTuple (values : List String)
  | ensureSingleTuple
  | exchange
  | exchangeS3 (numLevels levelNum : ℕ)
  | exchangeTcp (numLevels levelNum : ℕ)
  | expandPattern
  | filter
  | groupBy
  | join (numKeys : ℤ)
  | map
  | mapCpp (functionName : String)
  | materializeColumnChunks
  | materializeParquet (columnNames : List String)
  | materializeRowVector
  | nestedMap
  | parallelMap
  | parallelMapOmp
  | parameterLookup
  | parquetScan (columns : List (ℕ × List (String × String))) (filesystem : String)
  | partition (seed : ℕ)
  | partitionedExchange (numLevels levelNum : ℕ)
  | pipeline (numInputs : ℕ)
  | projection (positions : List ℕ)
  | range
  | reduce
  | reduceByIndex (min max : ℤ)
  | reduceByKey
  | reduceByKeyGrouped
  | rowScan (addIndex : Bool)
  | semiJoin
  | splitColumnData
  | splitRange
  | splitRowData
  | sort
  | topK (numElements : ℕ)
  | zip (numInputs : ℕ)
  deriving DecidableEq, Inhabited

namespace OperatorClass

/-- `kName`. -/
def name : OperatorClass → String
  | antiJoin => "antijoin"
  | antiJoinPredicated => "antijoin_predicated"
  | assertCorrectOpenNextClose => "assert_correct_open_next_close"
  | broadcast => "broadcast"
  | cartesian => "cartesian"
  | columnScan _ => "column_scan"
  | compiledPipeline .. => "compiled_pipeline"
  | concurrentExecute .. => "concurrent_execute"
  | concurrentExecuteLambda => "concurrent_execute_lambda"
  | concurrentExecuteProcess => "concurrent_execute_process"
  | constantTuple _ => "constant_tuple"
  | ensureSingleTuple => "ensure_single_tuple"
  | exchange => "exchange"
  | exchangeS3 .. => "exchange_s3"
  | exchangeTcp .. => "exchange_tcp"
  | expandPattern => "expand_pattern"
  | filter => "filter"
  | groupBy => "groupby"
  | join _ => "join"
  | map => "map"
  | mapCpp _ => "map_cpp"
  | materializeColumnChunks => "materialize_column_chunks"
  | materializeParquet _ => "materialize_parquet_file"
  | materializeRowVector => "materialize_row_vector"
  | nestedMap => "nested_map"
  | parallelMap => "parallel_map"
  | parallelMapOmp => "parallel_map_omp"
  | parameterLookup => "parameter_lookup"
  | parquetScan .. => "parquet_scan"
  | partition _ => "partition"
  | partitionedExchange .. => "partitioned_exchange"
  | pipeline _ => "pipeline"
  | projection _ => "projection"
  | range => "range_source"
  | reduce => "reduce"
  | reduceByIndex .. => "reduce_by_index"
  | reduceByKey => "reduce_by_key"
  | reduceByKeyGrouped => "reduce_by_key_grouped"
  | rowScan _ => "row_scan"
  | semiJoin => "semijoin"
  | splitColumnData => "split_column_data"
  | splitRange => "split_range"
  | splitRowData => "split_row_data"
  | sort => "sort"
  | topK _ => "topk"
  | zip _ => "zip"

def numInPorts : OperatorClass → ℕ
  | constantTuple _ | parameterLookup => 0
  | antiJoin | antiJoinPredicated | cartesian | expandPattern | join _ | materializeParquet _
  | partition _ | semiJoin | splitColumnData | splitRange | splitRowData => 2
  | exchangeS3 .. => 3
  | compiledPipeline numInputs _ _ | concurrentExecute numInputs _ | pipeline numInputs
  | zip numInputs => numInputs
  | assertCorrectOpenNextClose | broadcast | columnScan _ | concurrentExecuteLambda
  | concurrentExecuteProcess | ensureSingleTuple | exchange | exchangeTcp .. | filter | groupBy | map
  | mapCpp _ | materializeColumnChunks | materializeRowVector | nestedMap | parallelMap
  | parallelMapOmp | parquetScan .. | partitionedExchange .. | projection _ | range | reduce
  | reduceByIndex .. | reduceByKey | reduceByKeyGrouped | rowScan _ | sort | topK _ => 1

def numOutPorts : OperatorClass → ℕ
  | concurrentExecute _ numOutputs => numOutputs
  | _ => 1

end OperatorClass

/-- `DAGOperator`.  The type is unset until it is read from JSON or inferred. -/
structure DagOperator where
  id : ℕ
  tuple : Option TupleType
  llvmIr : String
  cls : OperatorClass
  deriving DecidableEq, Inhabited

end Jitq

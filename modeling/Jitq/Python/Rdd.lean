import Jitq.Lib.Text

namespace Jitq.Python

open Text

/-! # RDDs — the operator graphs of the Python frontend

An `Rdd` is a Python object with its parents, and object identity is its `id`: the text `str(operator)`
by which the visitors recognise an operator contains the address of the object.  So a graph with shared
sub-expressions is a tree in which a sub-tree with one `id` occurs more than once.

* `outputType` — the type that the constructor computes, `none` where it raises;
* `Rdd.visit` — the order in which `RDD.Visitor` calls its function: parents first, each object once;
* `selfHashText`, `hashText` — the texts that `self_hash` and `__hash__` hash;
* `finalDict` — the plan that `get_final_dict` computes from scratch. -/

/-! ### Types -/

/-- The types of numba that the frontend knows; `other` is any type that is not an item type. -/
inductive NumbaType
  | float32
  | float64
  | int32
  | int64
  | bool
  | unicodeType
  | other (name : String)
  | tuple (types : List NumbaType)
  | array (dtype : NumbaType) (ndim : ℕ) (layout : String)
  | list (dtype : NumbaType)
  | record (fields : List (String × NumbaType))
  deriving Inhabited

namespace NumbaType

/-- The fields of a tuple; another type is read as a tuple of one field. -/
def asTuple : NumbaType → List NumbaType
  | tuple types => types
  | type => [type]

def isTuple : NumbaType → Bool
  | tuple _ => true
  | _ => false

/-- `str(type_) in NUMPY_DTYPE_MAP`. -/
def isAtomic : NumbaType → Bool
  | float32 | float64 | int32 | int64 | bool | unicodeType => true
  | _ => false

mutual

def isItemType : NumbaType → Bool
  | other _ => false
  | tuple types => areItemTypes types
  | array dtype _ _ => isItemType dtype
  | list dtype => isItemType dtype
  | record fields => areItemFields fields
  | _ => true

def areItemTypes : List NumbaType → Bool
  | [] => true
  | type :: types => isItemType type && areItemTypes types

def areItemFields : List (String × NumbaType) → Bool
  | [] => true
  | (_, type) :: fields => isItemType type && areItemFields fields

end

mutual

/-- The fields of `make_flat_tuple(type_)`. -/
def flatTypes : NumbaType → List NumbaType
  | tuple types => flatHeads types
  | array dtype ndim layout => [array (tuple (flatTypes dtype)) ndim layout]
  | list dtype => [list (tuple (flatTypes dtype))]
  | record fields => flatFieldHeads fields
  | type => [type]

/-- `make_flat_tuple(t).types[0]` for each `t` of the flattened types. -/
def flatHeads : List NumbaType → List NumbaType
  | [] => []
  | type :: types => (match type with
      | tuple inner => flatHeads inner
      | type => (flatTypes type).take 1) ++ flatHeads types

def flatFieldHeads : List (String × NumbaType) → List NumbaType
  | [] => []
  | (_, type) :: fields => (match type with
      | tuple inner => flatHeads inner
      | type => (flatTypes type).take 1) ++ flatFieldHeads fields

end

def makeFlatTuple (type : NumbaType) : NumbaType := tuple (flatTypes type)

/-- `make_record`: names for the fields of an atomic type, a tuple or a record. -/
def makeRecord (type : NumbaType) (names : List String) : Option NumbaType :=
  let types : Option (List NumbaType) :=
    match type with
    | tuple types => some types
    | record fields => some (fields.map Prod.snd)
    | type => if type.isAtomic then some [type] else none
  types.bind fun types =>
    -- numpy has no type for strings and refuses two fields of one name
    if names.length = types.length ∧ names.Nodup ∧ types.all fun type =>
        type.isAtomic && !(type matches unicodeType) then
      some (record (names.zip types))
    else none

mutual

/-- `replace_unituple` on types that are already plain tuples: it raises on lists and on types that are
    not item types. -/
def isReplaceable : NumbaType → Bool
  | other _ => false
  | tuple types => areReplaceable types && areItemTypes types
  | array dtype _ _ => isReplaceable dtype
  | list _ => false
  | _ => true

def areReplaceable : List NumbaType → Bool
  | [] => true
  | type :: types => isReplaceable type && areReplaceable types

end

mutual

/-- `from_dtype(numba_type_to_dtype(type_))`: a nested tuple becomes a record, an array its items. -/
def throughDtype : NumbaType → Option NumbaType
  | unicodeType => none
  | other _ => none
  | list _ => none
  | tuple types => (fieldsThroughDtype 0 types).map record
  | array dtype _ _ => throughDtype dtype
  | type => some type

def fieldsThroughDtype (i : ℕ) : List NumbaType → Option (List (String × NumbaType))
  | [] => some []
  | type :: types => (throughDtype type).bind fun type =>
      (fieldsThroughDtype (i + 1) types).map fun fields => ("f" ++ toString i, type) :: fields

end

/-- `make_tuple`, which asserts that the fields are item types. -/
def makeTuple (types : List NumbaType) : Option NumbaType := if areItemTypes types then some (tuple types) else none

/-- `_compute_item_type_with_index`: a new first field, in a record with a name longer than all other
    names. -/
def withIndex : NumbaType → NumbaType
  | tuple types => tuple (int64 :: types)
  | record fields =>
    let longest := fields.foldl (fun key field => if key.length < field.1.length then field.1 else key) ""
    record ((longest ++ "0", int64) :: fields)
  | type => tuple [int64, type]

end NumbaType

/-! ### Operators -/

/-- A user function: the text that `dis.dis` prints for it, line by line, and the values of its free
    variables, which the text does not show. -/
structure UserFunc where
  dis : String
  closure : List (String × ℤ)
  newline : ∃ text, dis = text ++ String.singleton '\n'

inductive Filesystem
  | file
  | s3
  deriving DecidableEq

def Filesystem.text : Filesystem → String
  | .file => "file"
  | .s3 => "s3"

/-- A column of a Parquet file, with the texts of its range bounds. -/
structure ParquetColumn where
  idx : ℕ
  type : NumbaType
  ranges : List (String × String)

/-- Python and numba, as far as the plan depends on them: `hash` on texts, `str` on types and on the
    columns of a `ParquetScan` without their types, and the compiler, which gives the code and the
    return type of a function. -/
structure Interpreter where
  hash : String → ℤ
  hash_injective : Function.Injective hash
  typeName : NumbaType → String
  columnsText : List (ℕ × List (String × String)) → String
  compile : UserFunc → List NumbaType → Option (String × NumbaType)
  compileGenerator : UserFunc → Option (String × NumbaType)

/-- The subclasses of `SourceRDD`. -/
inductive SourceOp
  | constantTuple (values : List String) (outputType : NumbaType)
  | parameterLookup (outputType : NumbaType)
  | generatorSource (func : UserFunc)

/-- The subclasses of `UnaryRDD`.  `range` stands over the `ParameterLookup` that its constructor makes;
    no column names and an empty list of them are the same for `columnScan`. -/
inductive UnaryOp
  | ensureSingleTuple
  | map (func : UserFunc) (names : Option (List String))
  | materializeRowVector
  | materializeColumnVector
  | filter (func : UserFunc)
  | flatMap (func : UserFunc)
  | topK (numElements : ℤ)
  | sort
  | reduce (func : UserFunc)
  | reduceByKey (func : UserFunc)
  | reduceByIndex (func : UserFunc) (minIdx maxIdx : ℤ)
  | columnScan (addIndex : Bool) (columnNames : List String)
  | rowScan (addIndex : Bool)
  | range
  | parquetScan (columns : List ParquetColumn) (filesystem : Filesystem)

/-- The subclasses of `BinaryRDD`. -/
inductive BinaryOp
  | materializeParquetFile (columnNames : List String)
  | join (numKeys : ℤ)
  | antiJoin
  | antiJoinPredicated (func : UserFunc)
  | semiJoin
  | cartesian
  | zip
  | expandPattern

/-- `type(operator).__name__`. -/
def SourceOp.className : SourceOp → String
  | .constantTuple .. => "ConstantTuple"
  | .parameterLookup _ => "ParameterLookup"
  | .generatorSource _ => "GeneratorSource"

def UnaryOp.className : UnaryOp → String
  | .ensureSingleTuple => "EnsureSingleTuple"
  | .map .. => "Map"
  | .materializeRowVector => "MaterializeRowVector"
  | .materializeColumnVector => "MaterializeColumnVector"
  | .filter _ => "Filter"
  | .flatMap _ => "FlatMap"
  | .topK _ => "TopK"
  | .sort => "Sort"
  | .reduce _ => "Reduce"
  | .reduceByKey _ => "ReduceByKey"
  | .reduceByIndex .. => "ReduceByIndex"
  | .columnScan .. => "ColumnScan"
  | .rowScan _ => "RowScan"
  | .range => "Range"
  | .parquetScan .. => "ParquetScan"

def BinaryOp.className : BinaryOp → String
  | .materializeParquetFile _ => "MaterializeParquetFile"
  | .join _ => "Join"
  | .antiJoin => "AntiJoin"
  | .antiJoinPredicated _ => "AntiJoinPredicated"
  | .semiJoin => "SemiJoin"
  | .cartesian => "Cartesian"
  | .zip => "Zip"
  | .expandPattern => "ExpandPattern"

/-- The `NAME` of the class. -/
def SourceOp.name : SourceOp → String
  | .constantTuple .. => "constant_tuple"
  | .parameterLookup _ => "parameter_lookup"
  | .generatorSource _ => "generator_source"

def UnaryOp.name : UnaryOp → String
  | .ensureSingleTuple => "ensure_single_tuple"
  | .map .. => "map"
  | .materializeRowVector => "materialize_row_vector"
  | .materializeColumnVector => "materialize_column_chunks"
  | .filter _ => "filter"
  | .flatMap _ => "flat_map"
  | .topK _ => "topk"
  | .sort => "sort"
  | .reduce _ => "reduce"
  | .reduceByKey _ => "reduce_by_key"
  | .reduceByIndex .. => "reduce_by_index"
  | .columnScan .. => "column_scan"
  | .rowScan _ => "row_scan"
  | .range => "range_source"
  | .parquetScan .. => "parquet_scan"

def BinaryOp.name : BinaryOp → String
  | .materializeParquetFile _ => "materialize_parquet_file"
  | .join _ => "join"
  | .antiJoin => "antijoin"
  | .antiJoinPredicated _ => "antijoin_predicated"
  | .semiJoin => "semijoin"
  | .cartesian => "cartesian"
  | .zip => "zip"
  | .expandPattern => "expand_pattern"

/-! ### Construction -/

inductive AttributeValue
  | text (value : String)
  | texts (values : List String)
  | int (value : ℤ)
  | bool (value : Bool)
  | columns (values : List (ℕ × List (String × String)))
  deriving DecidableEq

/-- What a constructor leaves in the object for the plan: the output type, and the fields that
    `self_write_dag` adds to the dictionary of the operator. -/
structure Built where
  outputType : NumbaType
  attributes : List (String × AttributeValue) := []

def funcAttribute (llvmIr : String) : String × AttributeValue := ("func", .text llvmIr)

/-- `columns` without the types. -/
def untyped (columns : List ParquetColumn) : List (ℕ × List (String × String)) :=
  columns.map fun column => (column.idx, column.ranges)

section Build

variable (py : Interpreter)

def SourceOp.build : SourceOp → Option Built
  | .constantTuple values outputType => some ⟨outputType, [("values", .texts values)]⟩
  | .parameterLookup outputType => some ⟨outputType, []⟩
  | .generatorSource func => (py.compileGenerator func).map fun (llvmIr, type) => ⟨type, [funcAttribute llvmIr]⟩

/-- A tuple of one field is replaced by the field. -/
def unwrapSingle : List NumbaType → NumbaType
  | [type] => type
  | types => .tuple types

/-- The argument type of the function of a `Reduce` and the type that it has to return. -/
def reduceTypes : NumbaType → Option (NumbaType × NumbaType)
  | .tuple types => some (unwrapSingle types, unwrapSingle types)
  | .record fields => (NumbaType.makeTuple (fields.map Prod.snd)).map fun _ =>
      match fields with
      | [(_, type)] => (type, type)
      | fields => (.record fields, .tuple (fields.map Prod.snd))
  | type => if type.isAtomic then some (type, type) else none

/-- The same for `ReduceByKey`, whose function does not see the key. -/
def reduceByKeyTypes : NumbaType → Option (NumbaType × NumbaType)
  | .tuple types => (NumbaType.makeTuple types.tail).map fun _ => (unwrapSingle types.tail, unwrapSingle types.tail)
  | .record fields =>
    let aggregateTuple := NumbaType.tuple (fields.tail.map Prod.snd)
    -- the record is made before its single field is taken out, so it has to exist
    (aggregateTuple.makeRecord (fields.tail.map Prod.fst)).map fun aggregateType =>
      match fields.tail with
      | [(_, type)] => (type, type)
      | _ => (aggregateType, aggregateTuple)
  | _ => none

/-- The same for `ReduceByIndex`, which takes tuples only. -/
def reduceByIndexType : NumbaType → Option NumbaType
  | .tuple types => (NumbaType.makeTuple types.tail).map fun _ => unwrapSingle types.tail
  | _ => none

/-- Compiles `func` and compares its return type with the expected one by name. -/
def compileTo (func : UserFunc) (args : List NumbaType) (expected : String) : Option (String × NumbaType) :=
  (py.compile func args).filter fun (_, type) => py.typeName type = expected

/-- `_compute_item_type_with_index`, if an index is asked for. -/
def addIndexTo (addIndex : Bool) (type : NumbaType) : Option NumbaType :=
  if addIndex then (if type.isItemType then some type.withIndex else none) else some type

def columnScanType (columnNames : List String) : NumbaType → Option NumbaType
  | .tuple types => do
    let fieldTypes ← types.mapM fun
      | .array dtype _ _ => some dtype
      | _ => none
    if columnNames = [] then (NumbaType.makeTuple fieldTypes).filter NumbaType.isReplaceable
    else if fieldTypes.length = columnNames.length ∧ columnNames.Nodup then
      (fieldTypes.mapM NumbaType.throughDtype).map fun fieldTypes =>
        .record (columnNames.zip fieldTypes)
    else none
  | _ => none

/-- The constructors of the subclasses of `UnaryRDD`, with `self_write_dag`. -/
def UnaryOp.build (input : NumbaType) : UnaryOp → Option Built
  | .ensureSingleTuple => some ⟨input, []⟩
  | .map func names => do
    let (llvmIr, returnType) ← py.compile func [input]
    let outputType ← match names with
      | none => some returnType
      | some names => returnType.makeRecord names
    if outputType.isItemType then some ⟨outputType, [funcAttribute llvmIr]⟩ else none
  | .materializeRowVector =>
    match input with
    | .array .. | .list _ => some ⟨.list input, []⟩
    | _ => if input.isReplaceable then some ⟨.array input 1 "C", []⟩ else none
  | .materializeColumnVector =>
    match input with
    | .tuple types => (NumbaType.makeTuple (types.map (.array · 1 "C"))).map fun type => ⟨type, []⟩
    | _ => none
  | .filter func => (compileTo py func [input] "bool").map fun (llvmIr, _) => ⟨input, [funcAttribute llvmIr]⟩
  | .flatMap func =>
    -- compiled without arguments, whatever the input is
    (py.compileGenerator func).map fun (llvmIr, type) => ⟨type, [funcAttribute llvmIr]⟩
  | .topK numElements =>
    if numElements ≤ 0 then none else some ⟨input, [("num_elements", .int numElements)]⟩
  | .sort => some ⟨input, []⟩
  | .reduce func => do
    let (argType, aggregateType) ← reduceTypes input
    let (llvmIr, type) ← compileTo py func [argType, argType] (py.typeName aggregateType)
    some ⟨type, [funcAttribute llvmIr]⟩
  | .reduceByKey func => do
    let (argType, aggregateType) ← reduceByKeyTypes input
    let (llvmIr, _) ← compileTo py func [argType, argType] (py.typeName aggregateType)
    some ⟨input, [funcAttribute llvmIr]⟩
  | .reduceByIndex func minIdx maxIdx => do
    let aggregateType ← reduceByIndexType input
    let (llvmIr, _) ←
      compileTo py func [aggregateType, aggregateType] (py.typeName aggregateType)
    some ⟨input, [funcAttribute llvmIr, ("min", .int minIdx), ("max", .int maxIdx)]⟩
  | .columnScan addIndex columnNames =>
    ((columnScanType columnNames input).bind (addIndexTo addIndex)).map fun type =>
      ⟨type, [("add_index", .bool addIndex)]⟩
  | .rowScan addIndex =>
    match input with
    | .array dtype _ _ => (addIndexTo addIndex dtype).map fun type => ⟨type, [("add_index", .bool addIndex)]⟩
    | _ => none
  | .range =>
    match input with
    | .tuple (type :: _) => some ⟨type, []⟩
    | _ => none
  | .parquetScan columns filesystem =>
    (NumbaType.makeTuple (columns.map fun column => .array column.type 1 "C")).map fun type =>
      ⟨type, [("columns", .columns (untyped columns)), ("filesystem", .text filesystem.text)]⟩

variable (left right : NumbaType)

/-- Two inputs that are both no tuples. -/
def bothScalar : Bool := !left.isTuple && !right.isTuple

/-- `Join.compute_output_type`. -/
def joinType (numKeys : ℤ) (left right : NumbaType) : Option NumbaType :=
  let keys := numKeys.toNat
  let names := fun type : NumbaType => (type.asTuple.take keys).map py.typeName
  if numKeys ≤ 0 ∨ min left.asTuple.length right.asTuple.length < keys then none
  else if names left ≠ names right then none
  else if bothScalar left right then some left
  else NumbaType.makeTuple
    (left.asTuple.take keys ++ left.asTuple.drop keys ++ right.asTuple.drop keys)

/-- `compute_output_type` of `AntiJoin` and of `SemiJoin`: the first fields are compared. -/
def leftJoinType : Option NumbaType :=
  match left.asTuple, right.asTuple with
  | leftKey :: leftPayload, rightKey :: _ =>
    if py.typeName leftKey ≠ py.typeName rightKey then none
    else if bothScalar left right then some left
    else NumbaType.makeTuple (leftKey :: leftPayload)
  | _, _ => none

/-- The constructors of the subclasses of `BinaryRDD`, with `self_write_dag`. -/
def BinaryOp.build : BinaryOp → Option Built
  | .materializeParquetFile columnNames =>
    some ⟨.tuple [.unicodeType, .int64, .int64, .int64], [("column_names", .texts columnNames)]⟩
  | .join numKeys => (joinType py numKeys left right).map fun type => ⟨type, [("num_keys", .int numKeys)]⟩
  | .antiJoin => (leftJoinType py left right).map fun type => ⟨type, []⟩
  | .antiJoinPredicated func => do
    let type ← leftJoinType py left right
    let (llvmIr, _) ← compileTo py func [left, right] "bool"
    some ⟨type, [funcAttribute llvmIr]⟩
  | .semiJoin => (leftJoinType py left right).map fun type => ⟨type, []⟩
  | .cartesian => (NumbaType.makeTuple (left.asTuple ++ right.asTuple)).map fun type => ⟨type, []⟩
  | .zip => (NumbaType.makeTuple (left.asTuple ++ right.asTuple)).map fun type =>
      ⟨type, [("num_inputs", .int 2)]⟩
  | .expandPattern => some ⟨.unicodeType, []⟩

end Build

/-! ### Graphs -/

/-- An RDD object with its parents. -/
inductive Rdd
  | source (id : ℕ) (op : SourceOp)
  | unary (id : ℕ) (op : UnaryOp) (parent : Rdd)
  | binary (id : ℕ) (op : BinaryOp) (left right : Rdd)

namespace Rdd

def id : Rdd → ℕ
  | source id _ | unary id _ _ | binary id _ _ _ => id

def parents : Rdd → List Rdd
  | source _ _ => []
  | unary _ _ parent => [parent]
  | binary _ _ left right => [left, right]

def className : Rdd → String
  | source _ op => op.className
  | unary _ op _ => op.className
  | binary _ op _ _ => op.className

def name : Rdd → String
  | source _ op => op.name
  | unary _ op _ => op.name
  | binary _ op _ _ => op.name

/-- `self_get_inputs`: only a `ParameterLookup` has an input. -/
def isParameterLookup : Rdd → Bool
  | source _ (.parameterLookup _) => true
  | _ => false

/-- `RDD.Visitor`: `visited` is the set of the visitor, and the operators for which its function has been
    called stand in the order of the calls. -/
def visit : Rdd → List ℕ × List Rdd → List ℕ × List Rdd
  | source id op, (visited, called) =>
    if id ∈ visited then (visited, called)
    else (id :: visited, called ++ [source id op])
  | unary id op parent, (visited, called) =>
    if id ∈ visited then (visited, called)
    else
      let state := parent.visit (id :: visited, called)
      (state.1, state.2 ++ [unary id op parent])
  | binary id op left right, (visited, called) =>
    if id ∈ visited then (visited, called)
    else
      let state := right.visit (left.visit (id :: visited, called))
      (state.1, state.2 ++ [binary id op left right])

def visitOrder (rdd : Rdd) : List Rdd := (rdd.visit ([], [])).2

section Plan

variable (py : Interpreter)

/-- The result of the constructors, `none` where one raises. -/
def built : Rdd → Option Built
  | source _ op => op.build py
  | unary _ op parent => parent.built.bind fun input => op.build py input.outputType
  | binary _ op left right =>
    left.built.bind fun leftInput => right.built.bind fun rightInput =>
      op.build py leftInput.outputType rightInput.outputType

variable (rdd : Rdd)

def outputType : Option NumbaType := (rdd.built py).map Built.outputType

/-- `str(self.output_type)`. -/
def typeText : String := ((rdd.outputType py).map py.typeName).getD ""

/-- `str` on a Python boolean. -/
def boolText (b : Bool) : String := bif b then "True" else "False"

/-- The text that `self_hash` hashes; the empty text is the default of `RDD`. -/
def selfHashText : String :=
  match rdd with
  | source _ (.constantTuple values _) => join "#" values
  | source _ (.parameterLookup _) => rdd.typeText py
  | source _ (.generatorSource func) => func.dis
  | unary _ (.map func _) _ | unary _ (.filter func) _ | unary _ (.flatMap func) _
  | unary _ (.reduce func) _ | unary _ (.reduceByKey func) _ => func.dis
  | unary _ (.reduceByIndex func minIdx maxIdx) _ =>
    func.dis ++ (toString minIdx ++ "#" ++ toString maxIdx)
  | unary _ (.topK numElements) _ => rdd.typeText py ++ "#" ++ toString numElements
  | unary _ .sort _ => rdd.typeText py
  | unary _ (.columnScan addIndex _) _ | unary _ (.rowScan addIndex) _ =>
    rdd.typeText py ++ "#" ++ boolText addIndex
  | unary _ (.parquetScan columns filesystem) _ =>
    py.columnsText (untyped columns) ++ "#" ++ filesystem.text
  | binary _ (.materializeParquetFile columnNames) _ _ => join "##" columnNames
  | _ => ""

/-- `operator.hash` as `__hash__` leaves it. -/
def operatorHash : ℤ := py.hash (rdd.className ++ toString (py.hash (rdd.selfHashText py)))

/-- `__hash__`. -/
def hash : ℤ :=
  py.hash (join "#" (rdd.visitOrder.map fun operator => toString (operator.operatorHash py)))

end Plan

end Rdd

/-! ### Plans -/

/-- The dictionary of one operator; every predecessor is on port 0. -/
structure OpDict where
  id : ℕ
  predecessors : List (ℕ × ℕ)
  op : String
  outputType : NumbaType
  attributes : List (String × AttributeValue)

/-- An element of the list `inputs`; `op_port` is 0. -/
structure DagInput where
  op : ℕ
  opPort : ℕ
  dagPort : ℕ

structure DagDict where
  operators : List OpDict
  outputs : List (ℕ × ℕ)
  inputs : List DagInput

namespace Rdd

variable (py : Interpreter)

/-- `op_dicts[str(p)]['id']`. -/
def idIn (opDicts : List (ℕ × OpDict)) (rdd : Rdd) : Option ℕ := (opDicts.lookup rdd.id).map OpDict.id

/-- `collect_operators` of `write_dag`. -/
def collectOperator (opDicts : List (ℕ × OpDict)) (operator : Rdd) : Option (List (ℕ × OpDict)) := do
  let result ← operator.built py
  if result.outputType.isItemType then
    let predecessors ← operator.parents.mapM (idIn opDicts)
    some (opDicts ++ [(operator.id, { id := opDicts.length
                                      predecessors := predecessors.map (·, 0)
                                      op := operator.name
                                      outputType := result.outputType.makeFlatTuple
                                      attributes := result.attributes })])
  else none

/-- `write_dag`; the dictionary keeps the order in which the operators are added, which is the order of
    their ids. -/
def writeDag (rdd : Rdd) : Option (List (ℕ × OpDict)) := rdd.visitOrder.foldlM (collectOperator py) []

/-- `get_inputs`: the operators with an input, in the order of their input numbers. -/
def getInputs (rdd : Rdd) : List Rdd := rdd.visitOrder.filter isParameterLookup

/-- The plan and the output type that `get_final_dict` computes when nothing is cached. -/
def finalDict (rdd : Rdd) : Option (DagDict × NumbaType) := do
  let operators ← rdd.writeDag py
  let output ← rdd.idIn operators
  let inputs ← rdd.getInputs.mapM (idIn operators)
  let outputType ← rdd.outputType py
  some ({ operators := operators.map Prod.snd
          outputs := [(output, 0)]
          inputs := inputs.zipIdx.map fun (op, n) => ⟨op, 0, n⟩ }, outputType)

end Rdd

/-- `serialization_cache` of the context. -/
abbrev SerializationCache := List (String × (DagDict × NumbaType))

/-- `get_final_dict`: the plan and the output type that the object has afterwards, and the cache. -/
def getFinalDict (py : Interpreter) (cache : SerializationCache) (rdd : Rdd) :
    Option (DagDict × NumbaType) × SerializationCache :=
  let key := toString (rdd.hash py)
  match cache.lookup key with
  | some plan => (some plan, cache)
  | none =>
    match rdd.finalDict py with
    | some plan => (some plan, (key, plan) :: cache)
    -- an exception leaves the cache alone
    | none => (none, cache)

/-- A sequence of queries on one context. -/
def runQueries (py : Interpreter) : SerializationCache → List Rdd → List (Option (DagDict × NumbaType))
  | _, [] => []
  | cache, rdd :: rdds =>
    let result := getFinalDict py cache rdd
    result.1 :: runQueries py result.2 rdds

end Jitq.Python

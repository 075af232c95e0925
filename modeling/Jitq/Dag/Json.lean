import Jitq.Dag.Nested
import Jitq.Lib.Partial
import Mathlib.Data.List.Sort

namespace Jitq

open SortedMap Partial List

/-! # Plans as JSON

Plans reach the code generator as JSON and leave the optimizer as JSON.

* `toJson`, `fromJson` — `to_json` and `from_json` of `DAG`, with those of operators and types;
* `ofJson_members` — an operator is read as it was written, except for what `reread` drops. -/

/-! ### JSON -/

inductive Json
  | bool (b : Bool)
  | number (n : ℤ)
  | string (s : String)
  | array (elements : List Json)
  | object (members : List (String × Json))

namespace Json

/-- `json.at(key)`. -/
def find (key : String) : Json → Option Json
  | object members => members.lookup key
  | _ => none

def asBool : Json → Option Bool
  | bool b => some b
  | _ => none

def asInt : Json → Option ℤ
  | number n => some n
  | _ => none

/-- A number that is read as `size_t`. -/
def asNat : Json → Option ℕ
  | number n => some n.toNat
  | _ => none

def asString : Json → Option String
  | string s => some s
  | _ => none

def asArray : Json → Option (List Json)
  | array elements => some elements
  | _ => none

def ofNat (n : ℕ) : Json := number n

def strings (ss : List String) : Json := array (ss.map string)

def nats (ns : List ℕ) : Json := array (ns.map ofNat)

def asStrings (json : Json) : Option (List String) := json.asArray.bind fun es => es.mapM asString

def asNats (json : Json) : Option (List ℕ) := json.asArray.bind fun es => es.mapM asNat

@[simp] theorem asBool_bool (b : Bool) : (bool b).asBool = some b := rfl

@[simp] theorem asInt_number (n : ℤ) : (number n).asInt = some n := rfl

@[simp] theorem asNat_ofNat (n : ℕ) : (ofNat n).asNat = some n := rfl

@[simp] theorem asString_string (s : String) : (string s).asString = some s := rfl

@[simp] theorem asArray_array (es : List Json) : (array es).asArray = some es := rfl

@[simp] theorem asStrings_strings (ss : List String) : (strings ss).asStrings = some ss := by
  have h : (ss.map string).mapM asString = some ss := by
    rw [mapM_eq_some_iff, forall₂_map_left_iff, forall₂_same]
    exact fun _ _ => rfl
  exact h

@[simp] theorem asNats_nats (ns : List ℕ) : (nats ns).asNats = some ns := by
  have h : (ns.map ofNat).mapM asNat = some ns := by
    rw [mapM_eq_some_iff, forall₂_map_left_iff, forall₂_same]
    exact fun _ _ => rfl
  exact h

end Json

/-! ### Types -/

namespace ArrayLayout

def toText : ArrayLayout → String
  | C => "C"
  | F => "F"

def ofText (s : String) : Option ArrayLayout := if s = "C" then some C else if s = "F" then some F else none

theorem ofText_toText (layout : ArrayLayout) : ofText layout.toText = some layout := by
  cases layout <;> decide

end ArrayLayout

mutual

def FieldType.toJson : FieldType → Json
  | .atomic type => .object [("type", .string type)]
  | .array layout numDimensions tupleType => .object [("type", .string "array"),
      ("layout", .string layout.toText), ("num_dimensions", .ofNat numDimensions),
      ("tuple_type", .array (TupleType.elementsToJson tupleType))]

def TupleType.elementsToJson : List FieldType → List Json
  | [] => []
  | t :: ts => FieldType.toJson t :: TupleType.elementsToJson ts

end

mutual

/-- Reads a field type: an `Array` if `type` is `array`, an `Atomic` otherwise. -/
def FieldType.ofJson : Json → Option FieldType
  | .object members => do
    let type ← (members.lookup "type").bind Json.asString
    if type = "array" then
      let layout ← ((members.lookup "layout").bind Json.asString).bind ArrayLayout.ofText
      let numDimensions ← (members.lookup "num_dimensions").bind Json.asNat
      let tupleType ← TupleType.ofMembers members
      some (.array layout numDimensions tupleType)
    else
      some (.atomic type)
  | _ => none

/-- Reads a tuple type, which is an array of field types. -/
def TupleType.ofJson : Json → Option TupleType
  | .array elements => TupleType.ofElements elements
  | _ => none

def TupleType.ofElements : List Json → Option TupleType
  | [] => some []
  | e :: es => do
    let t ← FieldType.ofJson e
    let ts ← TupleType.ofElements es
    some (t :: ts)

/-- The `tuple_type` of an array. -/
def TupleType.ofMembers : List (String × Json) → Option TupleType
  | [] => none
  | (key, value) :: members =>
    if key = "tuple_type" then TupleType.ofJson value else TupleType.ofMembers members

end

def TupleType.toJson (tuple : TupleType) : Json := .array (TupleType.elementsToJson tuple)

/-! ### Operators -/

namespace OperatorClass

/-- What `to_json` of a class adds to the object of the operator. -/
def members : OperatorClass → List (String × Json)
  | columnScan addIndex => [("add_index", .bool addIndex)]
  | compiledPipeline numInputs libraryName functionName => [("num_inputs", .ofNat numInputs),
      ("library_name", .string libraryName), ("function_name", .string functionName)]
  | concurrentExecute numInputs numOutputs => [("num_inputs", .ofNat numInputs), ("num_outputs", .ofNat numOutputs)]
  | constantTuple values => [("values", .strings values)]
  | join numKeys => [("num_keys", .number numKeys)]
  | mapCpp functionName => [("function_name", .string functionName)]
  | materializeParquet columnNames => [("column_names", .strings columnNames)]
  | parquetScan columns filesystem =>
    [("columns", .array (columns.map fun (idx, ranges) => .object [("idx", .ofNat idx),
        ("ranges", .array (ranges.map fun (lo, hi) =>
          .object [("lo", .string lo), ("hi", .string hi)]))])),
      ("filesystem", .string filesystem)]
  | partition seed => [("seed", .ofNat seed)]
  | pipeline numInputs => [("num_inputs", .ofNat numInputs)]
  | projection positions => [("positions", .nats positions)]
  | reduceByIndex min max => [("min", .number min), ("max", .number max)]
  | rowScan addIndex => [("add_index", .bool addIndex)]
  | topK numElements => [("num_elements", .ofNat numElements)]
  | zip numInputs => [("num_inputs", .ofNat numInputs)]
  | _ => []

def rangeOfJson (json : Json) : Option (String × String) := do
  let lo ← (json.find "lo").bind Json.asString
  let hi ← (json.find "hi").bind Json.asString
  some (lo, hi)

def columnOfJson (json : Json) : Option (ℕ × List (String × String)) := do
  let ranges ← ((json.find "ranges").bind Json.asArray).bind fun rs => rs.mapM rangeOfJson
  let idx ← (json.find "idx").bind Json.asNat
  some (idx, ranges)

/-- `from_json` of a class, on an object of the class as `MakeDAGOperator` makes it. -/
def ofJson (json : Json) : OperatorClass → Option OperatorClass
  | columnScan _ => do
    let addIndex ← (json.find "add_index").bind Json.asBool
    some (columnScan addIndex)
  | compiledPipeline .. => do
    let numInputs ← (json.find "num_inputs").bind Json.asNat
    let libraryName ← (json.find "library_name").bind Json.asString
    let functionName ← (json.find "function_name").bind Json.asString
    some (compiledPipeline numInputs libraryName functionName)
  | concurrentExecute .. => do
    let numInputs ← (json.find "num_inputs").bind Json.asNat
    let numOutputs ← (json.find "num_outputs").bind Json.asNat
    some (concurrentExecute numInputs numOutputs)
  | constantTuple _ => do
    let values ← (json.find "values").bind Json.asStrings
    some (constantTuple values)
  | join _ => do
    let numKeys ← (json.find "num_keys").bind Json.asInt
    some (join numKeys)
  | mapCpp _ => do
    let functionName ← (json.find "function_name").bind Json.asString
    some (mapCpp functionName)
  | materializeParquet _ => do
    let columnNames ← (json.find "column_names").bind Json.asStrings
    some (materializeParquet columnNames)
  | parquetScan .. => do
    let columns ← ((json.find "columns").bind Json.asArray).bind fun cs => cs.mapM columnOfJson
    let filesystem ← (json.find "filesystem").bind Json.asString
    some (parquetScan columns filesystem)
  | partition _ => do
    let seed ← (json.find "seed").bind Json.asNat
    some (partition seed)
  | pipeline _ => do
    let numInputs ← (json.find "num_inputs").bind Json.asNat
    some (pipeline numInputs)
  | projection _ => do
    let positions ← (json.find "positions").bind Json.asNats
    some (projection positions)
  | reduceByIndex .. => do
    let min ← (json.find "min").bind Json.asInt
    let max ← (json.find "max").bind Json.asInt
    some (reduceByIndex min max)
  | rowScan _ => do
    let addIndex ← (json.find "add_index").bind Json.asBool
    some (rowScan addIndex)
  | topK _ => do
    let numElements ← (json.find "num_elements").bind Json.asNat
    some (topK numElements)
  | zip _ => do
    let numInputs ← (json.find "num_inputs").bind Json.asNat
    some (zip numInputs)
  | cls => some cls

/-- The objects that the registry makes, with the defaults of their classes. -/
def registered : List OperatorClass :=
  [antiJoin, antiJoinPredicated, assertCorrectOpenNextClose, broadcast, cartesian, columnScan false,
    compiledPipeline 0 "" "", concurrentExecute 1 1, concurrentExecuteLambda, concurrentExecuteProcess,
    constantTuple [], ensureSingleTuple, exchange, exchangeS3 1 0, exchangeTcp 0 0, expandPattern, filter,
    groupBy, join 1, map, mapCpp "", materializeColumnChunks, materializeParquet [],
    materializeRowVector, nestedMap, parallelMap, parallelMapOmp, parameterLookup, parquetScan [] "",
    partition 0, partitionedExchange 0 0, pipeline 0, projection [], range, reduce, reduceByIndex 0 0,
    reduceByKey, reduceByKeyGrouped, rowScan false, semiJoin, splitColumnData, splitRange, splitRowData,
    sort, topK 0, zip 0]

/-- `MakeDAGOperator(op_name)`. -/
def make (name : String) : Option OperatorClass := registered.find? fun cls => cls.name = name

end OperatorClass

namespace DagOperator

/-- `to_json(json, op)`; the type has to be set. -/
def members (operator : DagOperator) : Option (List (String × Json)) :=
  operator.tuple.map fun tuple =>
    ("id", .ofNat operator.id) ::
      (if operator.llvmIr.isEmpty then [] else [("func", .string operator.llvmIr)]) ++
        [("output_type", TupleType.toJson tuple), ("op", .string operator.cls.name)] ++ operator.cls.members

/-- `MakeDAGOperator` and `from_json(json, op)`. -/
def ofJson (json : Json) : Option DagOperator := do
  let name ← (json.find "op").bind Json.asString
  let cls ← OperatorClass.make name
  let id ← (json.find "id").bind Json.asNat
  let llvmIr ← match json.find "func" with
    | some func => func.asString
    | none => some ""
  let tuple ← (json.find "output_type").bind TupleType.ofJson
  let cls ← cls.ofJson json
  some ⟨id, some tuple, llvmIr, cls⟩

end DagOperator

/-! ### DAGs -/

/-- The entry of a predecessor: the id of the operator and the port that the flow leaves. -/
def predecessorJson (idOf : ℕ → ℕ) (f : Flow) : Json :=
  .object [("op", .ofNat (idOf f.source.op)), ("port", .ofNat f.source.port)]

def inputJson (idOf : ℕ → ℕ) (input : ℕ × FlowTip) : Json :=
  .object [("op", .ofNat (idOf input.2.op)), ("op_port", .ofNat input.2.port), ("dag_port", .ofNat input.1)]

def outputJson (idOf : ℕ → ℕ) (tip : FlowTip) : Json :=
  .object [("op", .ofNat (idOf tip.op)), ("port", .ofNat tip.port)]

/-- The object of an operator in the JSON of its DAG: its predecessors in the order of the input ports,
    and its inner DAG. -/
def vertexJson {Inner : Type} (innerToJson : Inner → Option Json) (dag : OpDag Inner)
    (v : ℕ) : Option Json := do
  let members ← (dag.op v).operator.members
  let flows ← (range (dag.op v).operator.cls.numInPorts).mapM (dag.graph.inFlowOn v)
  let predecessors := flows.map (predecessorJson dag.idOf)
  let members := members ++ [("predecessors", .array predecessors)]
  match (dag.op v).innerDag with
  | none => some (.object members)
  | some inner => do
    let json ← innerToJson inner
    some (.object (members ++ [("inner_dag", json)]))

/-- `to_json(json, dag)`. -/
def toJson : (n : ℕ) → NestedDag n → Option Json
  | 0, dag => nomatch dag
  | n + 1, (dag : OpDag (NestedDag n)) => do
    let operators ← dag.operators.mapM (vertexJson (toJson n) dag)
    let inputs := dag.inputs.entries.map (inputJson dag.idOf)
    let outputs ← (range dag.outputs.entries.length).mapM dag.outputs.find
    some (.object [("operators", .array operators), ("inputs", .array inputs),
      ("outputs", .array (outputs.map (outputJson dag.idOf)))])

/-- An operator as read: with its inner DAG and the tips of its predecessors. -/
structure ParsedVertex (Inner : Type) where
  operator : DagOperator
  innerDag : Option Inner
  predecessors : List FlowTip

/-- `from_json(json, flow_tip)`; the operator is given by its id. -/
def tipOfJson (portKey : String) (json : Json) : Option FlowTip := do
  let op ← (json.find "op").bind Json.asNat
  let port ← (json.find portKey).bind Json.asNat
  some ⟨op, port⟩

def innerOfJson {Inner : Type} (innerFromJson : Json → Option Inner) (json : Json) : Option (Option Inner) :=
  match json.find "inner_dag" with
  | none => some none
  | some json => (innerFromJson json).map some

def vertexOfJson {Inner : Type} (innerFromJson : Json → Option Inner) (json : Json) :
    Option (ParsedVertex Inner) := do
  let operator ← DagOperator.ofJson json
  let innerDag ← innerOfJson innerFromJson json
  let predecessors ← ((json.find "predecessors").bind Json.asArray).bind fun ps =>
    ps.mapM (tipOfJson "port")
  some ⟨operator, innerDag, predecessors⟩

/-- The flows of the operators, in the order of their ids and of the input ports. -/
def parsedFlows {Inner : Type} (vertices : List (ParsedVertex Inner)) : List Flow :=
  (vertices.insertionSort fun a b => a.operator.id ≤ b.operator.id).flatMap fun a =>
    a.predecessors.zipIdx.map fun (source, i) => ⟨source, ⟨a.operator.id, i⟩⟩

/-- The DAG of the operators without flows, inputs and outputs.  The new operators are numbered by their
    ids, which have to be distinct. -/
def parsedDag {Inner : Type} (vertices : List (ParsedVertex Inner)) : Option (OpDag Inner) := do
  let ids := vertices.map fun a => a.operator.id
  guard ids.Nodup
  let vertexOf := fun id => vertices.find? fun a => a.operator.id = id
  some ⟨ids, fun id => ((vertexOf id).map fun a => ⟨a.operator, a.innerDag⟩).getD default, [], ∅, ∅⟩

def inputOfJson (json : Json) : Option (ℕ × FlowTip) := do
  let tip ← tipOfJson "op_port" json
  let dagPort ← (json.find "dag_port").bind Json.asNat
  some (dagPort, tip)

/-- `from_json(json)` of a DAG. -/
def fromJson : (n : ℕ) → Json → Option (NestedDag n)
  | 0, _ => none
  | n + 1, json => do
    let operators ← (json.find "operators").bind Json.asArray
    let vertices ← operators.mapM (vertexOfJson (fromJson n))
    let dag ← parsedDag vertices
    let dag ← (parsedFlows vertices).foldlM (fun dag f => dag.addFlow f.source f.target) dag
    let outputs ← ((json.find "outputs").bind Json.asArray).bind fun os => os.mapM (tipOfJson "port")
    let dag ← (outputs.zipIdx.map Prod.swap).foldlM (fun dag e => dag.setOutput e.1 e.2) dag
    let inputs ← ((json.find "inputs").bind Json.asArray).bind fun is => is.mapM inputOfJson
    inputs.foldlM (fun dag e => dag.addInput e.1 e.2) dag

/-! ### Which types and parameters come back -/

mutual

/-- No atomic type has the name that stands for arrays. -/
def FieldType.plain : FieldType → Bool
  | .atomic type => type ≠ "array"
  | .array _ _ tupleType => TupleType.plain tupleType

def TupleType.plain : List FieldType → Bool
  | [] => true
  | t :: ts => FieldType.plain t && TupleType.plain ts

end

mutual

theorem FieldType.ofJson_toJson (t : FieldType) : FieldType.ofJson t.toJson = if t.plain then some t else none := by
  cases t with
  | atomic type =>
    by_cases htype : type = "array"
    · simp [FieldType.toJson, FieldType.ofJson, FieldType.plain, htype, lookup_cons]
    · simp [FieldType.toJson, FieldType.ofJson, FieldType.plain, htype, lookup_cons]
  | array layout numDimensions tupleType =>
    have htuple := TupleType.ofElements_elementsToJson tupleType
    by_cases hplain : TupleType.plain tupleType = true <;>
      simp [FieldType.toJson, FieldType.ofJson, FieldType.plain, lookup_cons, TupleType.ofMembers,
        TupleType.ofJson, ArrayLayout.ofText_toText, htuple, hplain]

theorem TupleType.ofElements_elementsToJson (ts : List FieldType) :
    TupleType.ofElements (TupleType.elementsToJson ts) = if TupleType.plain ts then some ts else none := by
  cases ts with
  | nil => rfl
  | cons t ts =>
    have hhead := FieldType.ofJson_toJson t
    have htail := TupleType.ofElements_elementsToJson ts
    by_cases hplain : t.plain = true <;> by_cases hplains : TupleType.plain ts = true <;>
      simp [TupleType.elementsToJson, TupleType.ofElements, TupleType.plain, hhead, htail, hplain, hplains]

end

namespace OperatorClass

/-- The object of its class that the registry makes. -/
def fresh : OperatorClass → OperatorClass
  | columnScan _ => columnScan false
  | compiledPipeline .. => compiledPipeline 0 "" ""
  | concurrentExecute .. => concurrentExecute 1 1
  | constantTuple _ => constantTuple []
  | exchangeS3 .. => exchangeS3 1 0
  | exchangeTcp .. => exchangeTcp 0 0
  | join _ => join 1
  | mapCpp _ => mapCpp ""
  | materializeParquet _ => materializeParquet []
  | parquetScan .. => parquetScan [] ""
  | partition _ => partition 0
  | partitionedExchange .. => partitionedExchange 0 0
  | pipeline _ => pipeline 0
  | projection _ => projection []
  | reduceByIndex .. => reduceByIndex 0 0
  | rowScan _ => rowScan false
  | topK _ => topK 0
  | zip _ => zip 0
  | cls => cls

theorem make_name (cls : OperatorClass) : make cls.name = some cls.fresh := by
  cases cls <;> rfl

/-- What is left of the parameters after they have been written and read: the levels of exchanges are
    not written. -/
def reread : OperatorClass → OperatorClass
  | exchangeS3 .. => exchangeS3 1 0
  | exchangeTcp .. => exchangeTcp 0 0
  | partitionedExchange .. => partitionedExchange 0 0
  | cls => cls

theorem rangesOfJson (ranges : List (String × String)) :
    (ranges.map fun r => Json.object [("lo", .string r.1), ("hi", .string r.2)]).mapM rangeOfJson = some ranges := by
  rw [mapM_eq_some_iff, forall₂_map_left_iff, forall₂_same]
  simp [rangeOfJson, Json.find, lookup_cons]

theorem columnsOfJson (columns : List (ℕ × List (String × String))) :
    (columns.map fun c => Json.object [("idx", .ofNat c.1), ("ranges", .array (c.2.map fun r =>
      Json.object [("lo", .string r.1), ("hi", .string r.2)]))]).mapM columnOfJson = some columns := by
  rw [mapM_eq_some_iff, forall₂_map_left_iff, forall₂_same]
  simp [-mapM_map, columnOfJson, Json.find, lookup_cons, rangesOfJson]

/-- The keys that precede the parameters in the object of an operator. -/
def generalKeys : List String := ["id", "func", "output_type", "op"]

theorem lookup_append_of_forall_ne {key : String} {first rest : List (String × Json)}
    (h : ∀ m ∈ first, m.1 ≠ key) : (first ++ rest).lookup key = rest.lookup key := by
  induction first with
  | nil => rfl
  | cons m first ih =>
    have hne : (key == m.1) = false := beq_eq_false_iff_ne.mpr (h m mem_cons_self).symm
    rw [cons_append, lookup_cons, hne]
    exact ih fun x hx => h x (mem_cons_of_mem m hx)

/-- `from_json` gives back what `to_json` has written. -/
theorem ofJson_fresh (cls : OperatorClass) (rest : List (String × Json)) {json : Json}
    (hfind : ∀ key, key ∉ generalKeys → json.find key = (cls.members ++ rest).lookup key) :
    ofJson json cls.fresh = some cls.reread := by
  cases cls <;> first
    | rfl
    | simp [-mapM_map, fresh, ofJson, hfind, generalKeys, members, lookup_cons, reread, columnsOfJson]

/-- The keys that follow the parameters. -/
def graphKeys : List String := ["predecessors", "inner_dag"]

theorem members_key (cls : OperatorClass) (m : String × Json) (hm : m ∈ cls.members) :
    m.1 ∉ generalKeys ∧ m.1 ∉ graphKeys := by
  have hkeys : ∀ key ∈ cls.members.map Prod.fst, key ∉ generalKeys ∧ key ∉ graphKeys := by
    cases cls <;> simp [members, generalKeys, graphKeys]
  exact hkeys m.1 (mem_map_of_mem hm)

end OperatorClass

namespace DagOperator

open OperatorClass

/-- The members of an operator before its parameters. -/
def generalMembers (operator : DagOperator) (tuple : TupleType) : List (String × Json) :=
  ("id", .ofNat operator.id) ::
    (if operator.llvmIr.isEmpty then [] else [("func", .string operator.llvmIr)]) ++
      [("output_type", TupleType.toJson tuple), ("op", .string operator.cls.name)]

variable {operator : DagOperator}

theorem generalMembers_key {tuple : TupleType} (m : String × Json)
    (hm : m ∈ operator.generalMembers tuple) : m.1 ∈ generalKeys := by
  unfold generalMembers at hm
  split at hm
  · simp only [cons_append, nil_append, mem_cons, not_mem_nil, or_false] at hm
    rcases hm with rfl | rfl | rfl <;> simp [generalKeys]
  · simp only [cons_append, nil_append, mem_cons, not_mem_nil, or_false] at hm
    rcases hm with rfl | rfl | rfl | rfl <;> simp [generalKeys]

theorem members_eq (operator : DagOperator) : operator.members =
    operator.tuple.map fun tuple => operator.generalMembers tuple ++ operator.cls.members := rfl

theorem members_key {ms : List (String × Json)}
    (h : operator.members = some ms) (m : String × Json) (hm : m ∈ ms) : m.1 ∉ graphKeys := by
  obtain ⟨tuple, -, rfl⟩ := Option.map_eq_some_iff.mp ((members_eq operator).symm.trans h)
  rcases mem_append.mp hm with hm | hm
  · have hgeneral : ∀ key ∈ generalKeys, key ∉ graphKeys := by decide
    exact hgeneral m.1 (generalMembers_key m hm)
  · exact (OperatorClass.members_key _ m hm).2

/-- An operator is read as it was written, if its type can be, except for the parameters that are not
    written. -/
theorem ofJson_members {tuple : TupleType} {ms rest : List (String × Json)}
    (htuple : operator.tuple = some tuple) (h : operator.members = some ms) (hrest : ∀ m ∈ rest, m.1 ∈ graphKeys) :
    ofJson (.object (ms ++ rest)) = if TupleType.plain tuple then
      some { operator with cls := operator.cls.reread } else none := by
  rw [members_eq, htuple, Option.map_some] at h
  cases h
  rw [append_assoc]
  generalize htail : operator.cls.members ++ rest = tail
  have hcls : OperatorClass.ofJson (.object (operator.generalMembers tuple ++ tail))
      operator.cls.fresh = some operator.cls.reread := by
    refine ofJson_fresh operator.cls rest fun key hkey => ?_
    rw [htail]
    exact lookup_append_of_forall_ne fun m hm heq => hkey (heq ▸ generalMembers_key m hm)
  have hfunc : tail.lookup "func" = none := by
    refine lookup_eq_none_iff.mpr fun m hm => ?_
    rw [← htail] at hm
    rw [bne_iff_ne, ne_comm]
    rcases mem_append.mp hm with hm | hm
    · exact fun heq => (OperatorClass.members_key _ m hm).1 (heq ▸ by simp [generalKeys])
    · exact fun heq => absurd (hrest m hm) (heq ▸ by simp [graphKeys])
  have htype : TupleType.ofJson (TupleType.toJson tuple) = if TupleType.plain tuple then some tuple else none :=
    TupleType.ofElements_elementsToJson tuple
  -- what the members before the parameters say
  have hfinds : (Json.object (operator.generalMembers tuple ++ tail)).find "op" = some (.string operator.cls.name) ∧
      (Json.object (operator.generalMembers tuple ++ tail)).find "id" = some (.ofNat operator.id) ∧
      (Json.object (operator.generalMembers tuple ++ tail)).find "output_type" = some (TupleType.toJson tuple) ∧
      (Json.object (operator.generalMembers tuple ++ tail)).find "func" =
        if operator.llvmIr.isEmpty then none else some (.string operator.llvmIr) := by
    unfold generalMembers
    by_cases hempty : operator.llvmIr.isEmpty = true
    · simp only [hempty, if_true]
      exact ⟨rfl, rfl, rfl, hfunc⟩
    · simp only [hempty]
      exact ⟨rfl, rfl, rfl, rfl⟩
  obtain ⟨hop, hid, hout, hfunc'⟩ := hfinds
  unfold ofJson
  rw [hop, hid, hout, hfunc']
  simp only [Option.bind_some, Option.bind_eq_bind, Json.asString_string, Json.asNat_ofNat, make_name, htype, hcls]
  by_cases hempty : operator.llvmIr.isEmpty = true
  · have hir : operator.llvmIr = "" := String.isEmpty_iff.mp hempty
    by_cases hplain : TupleType.plain tuple = true <;> simp [hplain, hir, htuple]
  · by_cases hplain : TupleType.plain tuple = true <;> simp [hplain, hempty, htuple]

end DagOperator

end Jitq

import Jitq.Dag.Json
import Jitq.Lib.Firsts

namespace Jitq

open SortedMap Partial Firsts List

/-! # Reading back a plan that was written

* `SameDag` — equality of plans up to the addresses of their operators and the order of their flows;
* `RoundTrips` — the plan comes back;
* `roundTrips_iff` — which plans do. -/

/-! ### Equal plans -/

namespace OperatorClass

/-- The parameters that code generation reads.  A partitioned exchange is replaced before. -/
def generated : OperatorClass → OperatorClass
  | partitionedExchange .. => partitionedExchange 0 0
  | cls => cls

end OperatorClass

/-- Operators that agree in id, name, output type, IR and all parameters that code generation reads. -/
structure SameOperator (a b : DagOperator) : Prop where
  id : a.id = b.id
  tuple : a.tuple = b.tuple
  llvmIr : a.llvmIr = b.llvmIr
  cls : a.cls.generated = b.cls.generated

/-- `dag'` is `dag` with other addresses, given by `ρ`, and other inner DAGs that are `same`. -/
structure PortedDag.Renamed {Inner : Type} (same : Inner → Inner → Prop)
    (dag dag' : OpDag Inner) (ρ : ℕ → ℕ) : Prop where
  injective : ∀ u ∈ dag.operators, ∀ v ∈ dag.operators, ρ u = ρ v → u = v
  operators : dag'.operators = dag.operators.map ρ
  operator : ∀ v ∈ dag.operators, SameOperator (dag.op v).operator (dag'.op (ρ v)).operator
  innerDag : ∀ v ∈ dag.operators, Option.Rel same (dag.op v).innerDag (dag'.op (ρ v)).innerDag
  flows : dag'.flows.Perm (dag.flows.map (Flow.rename ρ))
  inputs : dag'.inputs.entries = dag.inputs.entries.map fun e => (e.1, e.2.rename ρ)
  outputs : dag'.outputs.entries = dag.outputs.entries.map fun e => (e.1, e.2.rename ρ)

/-- Plans that are equal up to the addresses of their operators and the order of their flows. -/
def SameDag : (n : ℕ) → NestedDag n → NestedDag n → Prop
  | 0, dag, _ => nomatch dag
  | n + 1, dag, dag' => ∃ ρ, PortedDag.Renamed (SameDag n) dag dag' ρ

/-- One level of a plan that can be written: acyclic, with distinct ids, one in-flow on each input port
    and none elsewhere, and contiguous output ports. -/
structure PortedDag.Writable {Inner : Type} (dag : OpDag Inner) : Prop where
  closed : dag.Closed
  acyclic : dag.Acyclic
  ids : (dag.operators.map dag.idOf).Nodup
  inFlow : ∀ v ∈ dag.operators, ∀ i < (dag.op v).operator.cls.numInPorts, ∃ f, dag.graph.inFlowOn v i = some f
  port : ∀ f ∈ dag.flows, f.target.port < (dag.op f.target.op).operator.cls.numInPorts
  outputs : dag.outputs.keys = range dag.outputs.entries.length

/-- All of an operator is written: exchanges have the levels of a new object, and the type is set and has
    no atomic type that is named `array`. -/
def KeptOperator (operator : DagOperator) : Prop :=
  operator.cls.reread.generated = operator.cls.generated ∧ operator.tuple.any TupleType.plain = true

/-- Writing a plan and reading it again succeeds and gives an equal plan. -/
def RoundTrips (n : ℕ) (dag : NestedDag n) : Prop :=
  ∃ json dag', toJson n dag = some json ∧ fromJson n json = some dag' ∧ SameDag n dag dag'

/-! ### One level -/

/-- The end of `from_json`, when the operators, the outputs and the inputs have been read. -/
def buildDag {Inner : Type} (vertices : List (ParsedVertex Inner)) (outputs : List FlowTip)
    (inputs : List (ℕ × FlowTip)) : Option (OpDag Inner) := do
  let dag ← parsedDag vertices
  let dag ← (parsedFlows vertices).foldlM (fun dag f => dag.addFlow f.source f.target) dag
  let dag ← (outputs.zipIdx.map Prod.swap).foldlM (fun dag e => dag.setOutput e.1 e.2) dag
  inputs.foldlM (fun dag e => dag.addInput e.1 e.2) dag

variable {v : ℕ}

section Level

variable {Inner : Type} {innerToJson : Inner → Option Json} {innerFromJson : Json → Option Inner}
  {dag : OpDag Inner}

/-- Writing and reading an inner DAG, if there is one. -/
def innerRoundTrip (innerToJson : Inner → Option Json) (innerFromJson : Json → Option Inner) :
    Option Inner → Option (Option Inner)
  | none => some none
  | some inner => ((innerToJson inner).bind innerFromJson).map some

theorem tipsOfJson (idOf : ℕ → ℕ) (fs : List Flow) : (fs.map (predecessorJson idOf)).mapM (tipOfJson "port") =
      some (fs.map fun f => f.source.rename idOf) := by
  rw [mapM_eq_some_iff, forall₂_map_left_iff, forall₂_map_right_iff, forall₂_same]
  simp [predecessorJson, tipOfJson, Json.find, lookup_cons, FlowTip.rename]

theorem find_members_append {operator : DagOperator} {ms : List (String × Json)}
    (h : operator.members = some ms) (rest : List (String × Json)) {key : String}
    (hkey : key ∈ OperatorClass.graphKeys) : (Json.object (ms ++ rest)).find key = rest.lookup key :=
  OperatorClass.lookup_append_of_forall_ne fun m hm heq => DagOperator.members_key h m hm (heq ▸ hkey)

/-- Reading an operator whose members are followed by those of the graph. -/
theorem vertexOfJson_members (innerFromJson : Json → Option Inner) {operator : DagOperator} {tuple : TupleType}
    {ms : List (String × Json)} (rest : List (String × Json)) {tips : List FlowTip} {ps : List Json}
    (htuple : operator.tuple = some tuple) (hms : operator.members = some ms)
    (hrest : ∀ m ∈ rest, m.1 ∈ OperatorClass.graphKeys)
    (hpredecessors : rest.lookup "predecessors" = some (.array ps)) (htips : ps.mapM (tipOfJson "port") = some tips) :
    vertexOfJson innerFromJson (.object (ms ++ rest)) = if TupleType.plain tuple then
      (innerOfJson innerFromJson (.object rest)).map fun inner =>
        ⟨{ operator with cls := operator.cls.reread }, inner, tips⟩ else none := by
  have hfind : (Json.object (ms ++ rest)).find "predecessors" = some (.array ps) := by
    rw [find_members_append hms rest (by decide), hpredecessors]
  have hinner : innerOfJson innerFromJson (.object (ms ++ rest)) = innerOfJson innerFromJson (.object rest) := by
    unfold innerOfJson
    rw [find_members_append hms rest (by decide)]
    rfl
  unfold vertexOfJson
  rw [DagOperator.ofJson_members htuple hms hrest, hfind, hinner]
  by_cases hplain : TupleType.plain tuple = true
  · cases innerOfJson innerFromJson (.object rest) <;> simp [hplain, htips]
  · simp [hplain]

/-- An operator that is written and read. -/
theorem vertexJson_bind {fs : List Flow}
    (hflows : (range (dag.op v).operator.cls.numInPorts).mapM (dag.graph.inFlowOn v) = some fs) :
    (vertexJson innerToJson dag v).bind (vertexOfJson innerFromJson) =
      if (dag.op v).operator.tuple.any TupleType.plain then
        (innerRoundTrip innerToJson innerFromJson (dag.op v).innerDag).map fun inner =>
          ⟨{ (dag.op v).operator with cls := (dag.op v).operator.cls.reread }, inner,
            fs.map fun f => f.source.rename dag.idOf⟩
      else none := by
  cases htuple : (dag.op v).operator.tuple with
  | none => simp [vertexJson, DagOperator.members, htuple]
  | some tuple =>
    obtain ⟨ms, hms⟩ : ∃ ms, (dag.op v).operator.members = some ms :=
      ⟨_, by rw [DagOperator.members_eq, htuple, Option.map_some]⟩
    have htips := tipsOfJson dag.idOf fs
    unfold vertexJson
    rw [hms, hflows]
    cases hinner : (dag.op v).innerDag with
    | none =>
      have hread := vertexOfJson_members innerFromJson
        [("predecessors", .array (fs.map (predecessorJson dag.idOf)))] htuple hms
        (by simp [OperatorClass.graphKeys]) rfl htips
      exact hread
    | some inner =>
      cases hjson : innerToJson inner with
      | none => simp [innerRoundTrip, hjson]
      | some json =>
        have hread := vertexOfJson_members innerFromJson
          [("predecessors", .array (fs.map (predecessorJson dag.idOf))), ("inner_dag", json)] htuple hms
          (by simp [OperatorClass.graphKeys]) rfl htips
        simpa [innerRoundTrip, hjson, innerOfJson, Json.find, lookup_cons, PortedDag.idOf] using hread

/-- The in-flows of an operator in the order of its input ports. -/
def PortedDag.inFlowsByPort (dag : OpDag Inner) (v : ℕ) : List Flow :=
  (range (dag.op v).operator.cls.numInPorts).flatMap (dag.graph.inFlowsOn v)

namespace PortedDag.Writable

variable (h : dag.Writable)
include h

theorem mapM_inFlowOn (hv : v ∈ dag.operators) :
    (range (dag.op v).operator.cls.numInPorts).mapM (dag.graph.inFlowOn v) = some (dag.inFlowsByPort v) :=
  Dag.mapM_single fun i hi => h.inFlow v hv i (mem_range.mp hi)

/-- The positions in the list of predecessors are the input ports. -/
theorem zipIdx_inFlowsByPort (hv : v ∈ dag.operators) (ρ : ℕ → ℕ) :
    (((dag.inFlowsByPort v).map fun f => f.source.rename ρ).zipIdx.map fun p =>
      (⟨p.1, ⟨ρ v, p.2⟩⟩ : Flow)) = (dag.inFlowsByPort v).map (Flow.rename ρ) := by
  have htgt : ∀ p ∈ (dag.inFlowsByPort v).zipIdx, p.1.target = ⟨v, p.2⟩ := by
    rintro ⟨f, i⟩ hp
    obtain ⟨-, hop, hport⟩ := Dag.mem_of_inFlowOn (mem_zipIdx_of_mapM_range (h.mapM_inFlowOn hv) hp)
    exact congrArg₂ FlowTip.mk hop hport
  rw [zipIdx_map, map_map]
  calc (dag.inFlowsByPort v).zipIdx.map _
      = (dag.inFlowsByPort v).zipIdx.map (Flow.rename ρ ∘ Prod.fst) := by
        refine map_congr_left fun p hp => ?_
        simp [Flow.rename, htgt p hp, FlowTip.rename]
    _ = (dag.inFlowsByPort v).map (Flow.rename ρ) := by
        rw [← map_map, zipIdx_map_fst]

theorem inFlowsByPort_perm (v : ℕ) : (dag.inFlowsByPort v).Perm (dag.graph.inFlows v) :=
  perm_flatMap_filter (fun f : Flow => f.target.port) nodup_range fun f hf => by
    obtain ⟨hflow, rfl⟩ := Dag.mem_inFlows.mp hf
    exact mem_range.mpr (h.port f hflow)

/-- Every flow is the in-flow of one operator. -/
theorem flatMap_inFlowsByPort_perm : (dag.operators.flatMap dag.inFlowsByPort).Perm dag.flows :=
  (List.Perm.flatMap_left _ fun v _ => h.inFlowsByPort_perm v).trans
    (perm_flatMap_filter (fun f : Flow => f.target.op) h.closed.nodup h.closed.target)

end PortedDag.Writable

/-- The vertices are read with the ids and the flows of the operators. -/
structure PortedDag.ReadAs (dag : OpDag Inner) (p : ℕ → ParsedVertex Inner) : Prop where
  id : ∀ v ∈ dag.operators, (p v).operator.id = dag.idOf v
  predecessors : ∀ v ∈ dag.operators, (p v).predecessors = (dag.inFlowsByPort v).map fun f => f.source.rename dag.idOf

theorem parsedFlows_perm (h : dag.Writable) {p : ℕ → ParsedVertex Inner} (hp : dag.ReadAs p) :
    (parsedFlows (dag.operators.map p)).Perm (dag.flows.map (Flow.rename dag.idOf)) := by
  have hflows : (dag.operators.map p).flatMap (fun a =>
      a.predecessors.zipIdx.map fun e => (⟨e.1, ⟨a.operator.id, e.2⟩⟩ : Flow)) =
        (dag.operators.flatMap dag.inFlowsByPort).map (Flow.rename dag.idOf) := by
    rw [flatMap_map, map_flatMap]
    refine flatMap_congr fun v hv => ?_
    rw [hp.predecessors v hv, hp.id v hv]
    exact h.zipIdx_inFlowsByPort hv dag.idOf
  refine ((perm_insertionSort _ _).flatMap_right _).trans ((Perm.of_eq hflows).trans ?_)
  exact h.flatMap_inFlowsByPort_perm.map _

namespace PortedDag.Writable

variable (h : dag.Writable)
include h

theorem injOn_idOf : Set.InjOn dag.idOf {v | v ∈ dag.operators} :=
  fun _ hu _ hv heq => inj_on_of_nodup_map h.ids hu hv heq

/-- The positions in the list of outputs are the output ports. -/
theorem zipIdx_outputs (ρ : ℕ → ℕ) : ((dag.outputs.entries.map fun e => e.2.rename ρ).zipIdx.map Prod.swap) =
      dag.outputs.entries.map fun e => (e.1, e.2.rename ρ) := by
  have hkeys : dag.outputs.entries.map Prod.fst = range dag.outputs.entries.length := h.outputs
  rw [zipIdx_eq_zip_range', length_map, ← range_eq_range', ← hkeys, zip_map']
  simp [map_map, Function.comp_def]

end PortedDag.Writable

/-- An operator that was read is found by its id. -/
theorem PortedDag.ReadAs.find_id {p : ℕ → ParsedVertex Inner} (hp : dag.ReadAs p) (h : dag.Writable)
    (hv : v ∈ dag.operators) : (dag.operators.map p).find? (fun a => a.operator.id = dag.idOf v) = some (p v) := by
  cases hfind : (dag.operators.map p).find? fun a => a.operator.id = dag.idOf v with
  | none => exact absurd (hp.id v hv) (by simpa using find?_eq_none.mp hfind _ (mem_map_of_mem hv))
  | some a =>
    obtain ⟨u, hu, rfl⟩ := mem_map.mp (mem_of_find?_eq_some hfind)
    have hid : (p u).operator.id = dag.idOf v := by simpa using find?_some hfind
    rw [h.injOn_idOf hu hv ((hp.id u hu).symm.trans hid)]

section

variable (h : dag.Writable) {p : ℕ → ParsedVertex Inner} (hp : dag.ReadAs p)

include h hp

/-- The operators without flows, inputs and outputs. -/
theorem parsedDag_eq :
    ∃ op : ℕ → Vertex Inner, parsedDag (dag.operators.map p) = some ⟨dag.operators.map dag.idOf, op, [], ∅, ∅⟩ ∧
      ∀ v ∈ dag.operators, op (dag.idOf v) = ⟨(p v).operator, (p v).innerDag⟩ := by
  have hids : (dag.operators.map p).map (fun a => a.operator.id) = dag.operators.map dag.idOf := by
    rw [map_map]
    exact map_congr_left hp.id
  unfold parsedDag
  simp only [hids, guard, h.ids, if_true]
  refine ⟨_, rfl, fun v hv => ?_⟩
  rw [hp.find_id h hv]
  rfl

/-- The flows of the operators do not close a cycle. -/
theorem foldlM_parsedFlows {op : ℕ → Vertex Inner} : (parsedFlows (dag.operators.map p)).foldlM
        (fun (dag : OpDag Inner) f => dag.addFlow f.source f.target)
        ⟨dag.operators.map dag.idOf, op, [], ∅, ∅⟩ =
      some ⟨dag.operators.map dag.idOf, op, parsedFlows (dag.operators.map p), ∅, ∅⟩ := by
  have hflows := parsedFlows_perm h hp
  have hacyc := Graphs.Acyclic.map h.acyclic h.injOn_idOf (by
    rintro e he
    obtain ⟨f, hf, rfl⟩ := mem_map.mp he
    exact ⟨h.closed.source f hf, h.closed.target f hf⟩)
  refine PortedDag.foldlM_addFlow ?_ ?_
  · refine Graphs.Acyclic.mono hacyc fun e he => ?_
    obtain ⟨f, hf, rfl⟩ := mem_map.mp he
    obtain ⟨g, hg, rfl⟩ := mem_map.mp (hflows.mem_iff.mp hf)
    exact mem_map_of_mem (mem_map_of_mem hg)
  · intro f hf
    obtain ⟨g, hg, rfl⟩ := mem_map.mp (hflows.mem_iff.mp hf)
    exact ⟨mem_map_of_mem (h.closed.source g hg), mem_map_of_mem (h.closed.target g hg)⟩

/-- A plan is built from the operators as they were read. -/
theorem buildDag_eq : ∃ dag', buildDag (dag.operators.map p) (dag.outputs.entries.map fun e => e.2.rename dag.idOf)
        (dag.inputs.entries.map fun e => (e.1, e.2.rename dag.idOf)) = some dag' ∧
      dag'.operators = dag.operators.map dag.idOf ∧
      (∀ v ∈ dag.operators, dag'.op (dag.idOf v) = ⟨(p v).operator, (p v).innerDag⟩) ∧
      dag'.flows.Perm (dag.flows.map (Flow.rename dag.idOf)) ∧
      dag'.inputs.entries = dag.inputs.entries.map (fun e => (e.1, e.2.rename dag.idOf)) ∧
      dag'.outputs.entries = dag.outputs.entries.map fun e => (e.1, e.2.rename dag.idOf) := by
  obtain ⟨op, hdag, hop⟩ := parsedDag_eq h hp
  have hmem : ∀ es : List (ℕ × FlowTip), (∀ e ∈ es, e.2.op ∈ dag.operators) →
      ∀ e ∈ es.map (fun e => (e.1, e.2.rename dag.idOf)), e.2.op ∈ dag.operators.map dag.idOf := by
    intro es hes e he
    obtain ⟨x, hx, rfl⟩ := mem_map.mp he
    exact mem_map_of_mem (hes x hx)
  refine ⟨⟨dag.operators.map dag.idOf, op, parsedFlows (dag.operators.map p),
    (dag.inputs.entries.map fun e => (e.1, e.2.rename dag.idOf)).foldl (fun m e => m.emplace e.1 e.2) ∅,
    (dag.outputs.entries.map fun e => (e.1, e.2.rename dag.idOf)).foldl (fun m e => m.assign e.1 e.2) ∅⟩,
    ?_, rfl, hop, parsedFlows_perm h hp, ?_, ?_⟩
  · simp only [buildDag, hdag, Option.bind_eq_bind, Option.bind_some, foldlM_parsedFlows h hp, h.zipIdx_outputs]
    rw [PortedDag.foldlM_setOutput, Option.bind_some, PortedDag.foldlM_addInput]
    · exact hmem _ h.closed.input
    · exact hmem _ h.closed.output
  · exact MultiMap.entries_foldl_emplace (pairwise_map.mpr dag.inputs.sorted)
  · exact Map.entries_foldl_assign (pairwise_map.mpr dag.outputs.sorted)

end

end Level

/-! ### All levels -/

variable {n : ℕ}

theorem toJson_bind_fromJson {dag : OpDag (NestedDag n)} (h : dag.Writable) :
    (toJson (n + 1) dag).bind (fromJson (n + 1)) =
      (dag.operators.mapM fun v => (vertexJson (toJson n) dag v).bind (vertexOfJson (fromJson n))).bind
        fun vertices => buildDag vertices (dag.outputs.entries.map fun e => e.2.rename dag.idOf)
          (dag.inputs.entries.map fun e => (e.1, e.2.rename dag.idOf)) := by
  have houts : (range dag.outputs.entries.length).mapM dag.outputs.find =
      some (dag.outputs.entries.map Prod.snd) := by
    rw [← h.outputs]
    exact dag.outputs.mapM_find_keys
  have htips : ((dag.outputs.entries.map Prod.snd).map (outputJson dag.idOf)).mapM (tipOfJson "port") =
      some (dag.outputs.entries.map fun e => e.2.rename dag.idOf) := by
    rw [mapM_eq_some_iff, map_map, forall₂_map_left_iff, forall₂_map_right_iff, forall₂_same]
    simp [outputJson, tipOfJson, Json.find, lookup_cons, FlowTip.rename]
  have hins : (dag.inputs.entries.map (inputJson dag.idOf)).mapM inputOfJson =
      some (dag.inputs.entries.map fun e => (e.1, e.2.rename dag.idOf)) := by
    rw [mapM_eq_some_iff, forall₂_map_left_iff, forall₂_map_right_iff, forall₂_same]
    simp [inputJson, inputOfJson, tipOfJson, Json.find, lookup_cons, FlowTip.rename]
  rw [← mapM_bind_mapM, toJson]
  cases hops : dag.operators.mapM (vertexJson (toJson n) dag) with
  | none => rfl
  | some operators =>
    simp only [houts, Option.bind_eq_bind, Option.bind_some]
    unfold fromJson buildDag
    simp only [Json.find, lookup_cons, Option.bind_some, Option.bind_eq_bind, Json.asArray_array, htips, hins,
      beq_self_eq_true, String.reduceBEq]
    rfl

/-- The operator as it is read back. -/
def reparsed (n : ℕ) (dag : OpDag (NestedDag n)) (v : ℕ) : ParsedVertex (NestedDag n) :=
  ⟨{ (dag.op v).operator with cls := (dag.op v).operator.cls.reread },
    (innerRoundTrip (toJson n) (fromJson n) (dag.op v).innerDag).getD none,
    (dag.inFlowsByPort v).map fun f => f.source.rename dag.idOf⟩

theorem readAs_reparsed (dag : OpDag (NestedDag n)) : dag.ReadAs (reparsed n dag) :=
  ⟨fun _ _ => rfl, fun _ _ => rfl⟩

theorem vertexJson_bind_eq {dag : OpDag (NestedDag n)} (h : dag.Writable)
    (hv : v ∈ dag.operators) : (vertexJson (toJson n) dag v).bind (vertexOfJson (fromJson n)) =
      if (dag.op v).operator.tuple.any TupleType.plain ∧
          (innerRoundTrip (toJson n) (fromJson n) (dag.op v).innerDag).isSome then
        some (reparsed n dag v) else none := by
  rw [vertexJson_bind (h.mapM_inFlowOn hv), reparsed]
  cases innerRoundTrip (toJson n) (fromJson n) (dag.op v).innerDag <;> simp

theorem roundTrips_iff_bind {dag : NestedDag n} :
    RoundTrips n dag ↔ ∃ dag', (toJson n dag).bind (fromJson n) = some dag' ∧ SameDag n dag dag' := by
  constructor
  · rintro ⟨json, dag', hto, hfrom, hsame⟩
    exact ⟨dag', by rw [hto, Option.bind_some, hfrom], hsame⟩
  · rintro ⟨dag', hbind, hsame⟩
    obtain ⟨json, hto, hfrom⟩ := Option.bind_eq_some_iff.mp hbind
    exact ⟨json, dag', hto, hfrom, hsame⟩

theorem innerRoundTrip_iff {innerDag : Option (NestedDag n)} : (∀ inner ∈ innerDag, RoundTrips n inner) ↔
      ∃ innerDag', innerRoundTrip (toJson n) (fromJson n) innerDag = some innerDag' ∧
        Option.Rel (SameDag n) innerDag innerDag' := by
  cases innerDag with
  | none => simp [innerRoundTrip]
  | some inner =>
    have hiff := @roundTrips_iff_bind n inner
    constructor
    · intro h
      obtain ⟨inner', hbind, hsame⟩ := hiff.mp (h inner rfl)
      exact ⟨some inner', by rw [innerRoundTrip, hbind, Option.map_some], .some hsame⟩
    · rintro ⟨innerDag', htrip, hsame⟩ x hx
      obtain rfl := Option.some.inj (hx : some inner = some x)
      obtain ⟨inner', hbind, rfl⟩ := Option.map_eq_some_iff.mp htrip
      cases hsame with
      | some hsame => exact hiff.mpr ⟨inner', hbind, hsame⟩

/-- The plan comes back if and only if each operator does. -/
theorem roundTrips_succ {dag : OpDag (NestedDag n)} (h : dag.Writable) :
    RoundTrips (n + 1) dag ↔ ∀ v ∈ dag.operators, KeptOperator (dag.op v).operator ∧
      ∀ inner ∈ (dag.op v).innerDag, RoundTrips n inner := by
  obtain ⟨dag1, hbuild, hops, hop, hflows, hins, houts⟩ := buildDag_eq h (readAs_reparsed dag)
  rw [roundTrips_iff_bind, toJson_bind_fromJson h]
  simp only [innerRoundTrip_iff]
  constructor
  · rintro ⟨dag', hbind, ρ, hρ⟩ v hv
    obtain ⟨vertices, hverts, hdag'⟩ := Option.bind_eq_some_iff.mp hbind
    -- every operator has been read, as `reparsed`
    have hread : ∀ u ∈ dag.operators, (dag.op u).operator.tuple.any TupleType.plain ∧
        (innerRoundTrip (toJson n) (fromJson n) (dag.op u).innerDag).isSome := by
      intro u hu
      obtain ⟨b, -, hb⟩ := exists_of_mapM_eq_some hverts hu
      rw [vertexJson_bind_eq h hu] at hb
      exact (Option.ite_none_right_eq_some.mp hb).1
    have hmap : vertices = dag.operators.map (reparsed n dag) := by
      refine Option.some.inj (hverts.symm.trans (mapM_eq_some_map fun u hu => ?_))
      rw [vertexJson_bind_eq h hu, if_pos (hread u hu)]
    obtain rfl : dag1 = dag' := by
      rw [hmap, hbuild] at hdag'
      exact Option.some.inj hdag'
    have hid : ρ v = dag.idOf v := map_inj_left.mp (hρ.operators.symm.trans hops) v hv
    have hoperator := hρ.operator v hv
    have hinner := hρ.innerDag v hv
    rw [hid, hop v hv] at hoperator hinner
    obtain ⟨hplain, htrip⟩ := hread v hv
    obtain ⟨innerDag', htrip⟩ := Option.isSome_iff_exists.mp htrip
    rw [reparsed, htrip] at hinner
    exact ⟨⟨hoperator.cls.symm, hplain⟩, innerDag', htrip, hinner⟩
  · intro hkept
    have hmap : (dag.operators.mapM fun v => (vertexJson (toJson n) dag v).bind
        (vertexOfJson (fromJson n))) = some (dag.operators.map (reparsed n dag)) := by
      refine mapM_eq_some_map fun v hv => ?_
      obtain ⟨⟨-, hplain⟩, innerDag', htrip, -⟩ := hkept v hv
      rw [vertexJson_bind_eq h hv, if_pos ⟨hplain, by rw [htrip]; rfl⟩]
    refine ⟨dag1, by rw [hmap, Option.bind_some, hbuild], dag.idOf, ?_⟩
    refine ⟨fun u hu v hv => h.injOn_idOf hu hv, hops, fun v hv => ?_, fun v hv => ?_, hflows, hins,
      houts⟩
    · rw [hop v hv]
      exact ⟨rfl, rfl, rfl, (hkept v hv).1.1.symm⟩
    · obtain ⟨-, innerDag', htrip, hsame⟩ := hkept v hv
      rw [hop v hv, reparsed, htrip]
      exact hsame

/-- A plan comes back if and only if all its operators, on all levels, are written as a whole. -/
theorem roundTrips_iff (n : ℕ) (dag : NestedDag n) (h : Everywhere PortedDag.Writable n dag) :
    RoundTrips n dag ↔
      Everywhere (fun dag => ∀ v ∈ dag.operators, KeptOperator (dag.op v).operator) n dag := by
  induction n with
  | zero => cases dag
  | succ n ih =>
    obtain ⟨hlevel, hinner⟩ := everywhere_succ.mp h
    rw [roundTrips_succ hlevel, everywhere_succ]
    constructor
    · intro hall
      exact ⟨fun v hv => (hall v hv).1, fun v hv inner hmem =>
        (ih inner (hinner v hv inner hmem)).mp ((hall v hv).2 inner hmem)⟩
    · rintro ⟨hkept, hall⟩ v hv
      exact ⟨hkept v hv, fun inner hmem =>
        (ih inner (hinner v hv inner hmem)).mpr (hall v hv inner hmem)⟩

/-! ### An exchange with two levels -/

/-- Constants that an exchange over S3 reads. -/
def exchangePlan (numLevels levelNum : ℕ) : NestedDag 1 where
  operators := [0, 1, 2, 3]
  op v := ⟨⟨v, some [.atomic "long"], "",
    if v = 3 then .exchangeS3 numLevels levelNum else .constantTuple ["1"]⟩, none⟩
  flows := [⟨⟨0, 0⟩, ⟨3, 0⟩⟩, ⟨⟨1, 0⟩, ⟨3, 1⟩⟩, ⟨⟨2, 0⟩, ⟨3, 2⟩⟩]
  inputs := ∅
  outputs := (∅ : Map ℕ FlowTip).assign 0 ⟨3, 0⟩

theorem exchangePlan_writable (numLevels levelNum : ℕ) :
    Everywhere PortedDag.Writable 1 (exchangePlan numLevels levelNum) := by
  refine ⟨⟨⟨by simp [exchangePlan], by simp [exchangePlan], by simp [exchangePlan], by simp [exchangePlan],
    by simp [exchangePlan, Map.mem_assign]⟩, ?_, by simp [exchangePlan, PortedDag.idOf], ?_, ?_, rfl⟩, ?_⟩
  · have hranked : Graphs.Ranked (exchangePlan numLevels levelNum).edges fun v => v := by
      simp [Graphs.Ranked, exchangePlan, PortedDag.edges]
    exact hranked.acyclic
  · intro v hv i hi
    simp only [exchangePlan, mem_cons, not_mem_nil, or_false] at hv
    rcases hv with rfl | rfl | rfl | rfl
    · exact absurd hi (Nat.not_lt_zero i)
    · exact absurd hi (Nat.not_lt_zero i)
    · exact absurd hi (Nat.not_lt_zero i)
    · match i, hi with
      | 0, _ => exact ⟨_, rfl⟩
      | 1, _ => exact ⟨_, rfl⟩
      | 2, _ => exact ⟨_, rfl⟩
  · simp [exchangePlan, OperatorClass.numInPorts]
  · intro v _ inner hinner
    simp [exchangePlan] at hinner

/-- The only level of a one-level exchange is kept. -/
theorem roundTrips_iff_exchangePlan : Everywhere PortedDag.Writable 1 (exchangePlan 1 0) ∧
    RoundTrips 1 (exchangePlan 1 0) := by
  refine ⟨exchangePlan_writable 1 0, (roundTrips_iff 1 _ (exchangePlan_writable 1 0)).mpr ⟨?_, ?_⟩⟩
  · intro v hv
    simp only [exchangePlan, mem_cons, not_mem_nil, or_false] at hv
    rcases hv with rfl | rfl | rfl | rfl <;> exact ⟨rfl, by decide⟩
  · intro v _ inner hinner
    simp [exchangePlan] at hinner

/-- The second level of a two-level exchange comes back as the only level of another. -/
theorem not_roundTrips_exchangePlan : Everywhere PortedDag.Writable 1 (exchangePlan 2 1) ∧
    ¬ RoundTrips 1 (exchangePlan 2 1) := by
  refine ⟨exchangePlan_writable 2 1, fun h => ?_⟩
  have hkept := (roundTrips_succ (exchangePlan_writable 2 1).1).mp h 3 (by simp [exchangePlan])
  exact absurd hkept.1.1 (by decide)

end Jitq

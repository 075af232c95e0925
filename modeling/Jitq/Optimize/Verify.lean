import Jitq.Dag.RoundTrip
import Jitq.Lib.Checked
import Jitq.Optimize.CanonicalForm

namespace Jitq.Optimize

open SortedMap SortBy Partial Graphs Checked List

/-! # The pass `Verify`

Counts the flows and the ports of every operator before a plan is canonicalized or written.

* `verifyDag` — the checks, with the errors they throw;
* `VerifiedLevel` — what the checks say about one level;
* `PortDiscipline` — what they are for: one in-flow on each port, and one input or output on each port
  of an inner DAG;
* `WithoutGaps` — what the numbers do not say;
* `verifyDag_sound` — the accepted plans that have the discipline, are written and canonicalized. -/

/-- The `runtime_error`s of the pass. -/
inductive VerifyError
  | noOutputs
  | wrongNumberOfInputs (id : ℕ) (name : String) (numInFlows numInPorts : ℕ)
  | noSuccessor (id : ℕ) (name : String) (port : ℕ)
  | invalidOutFlow (id : ℕ) (name : String)
  | nonMatchingInputPorts (id : ℕ) (name : String) (numInPorts dagNumInPorts : ℕ)
  | nonMatchingOutputPorts (id : ℕ) (name : String) (numOutPorts dagNumOutPorts : ℕ)
  deriving DecidableEq

/-- Throws unless the condition holds. -/
def check (condition : Prop) [Decidable condition] (error : VerifyError) : Except VerifyError Unit :=
  if condition then .ok () else .error error

/-- Every output port has a successor, and no flow leaves another port. -/
def verifyOutFlows {Inner : Type} (dag : OpDag Inner) (v : ℕ) : Except VerifyError Unit := do
  let operator := (dag.op v).operator
  let totalNumOutFlows ← (range operator.cls.numOutPorts).foldlM (fun total i => do
    let numOutFlows := (dag.graph.outFlowsOn v i).length
    check (numOutFlows ≠ 0) (.noSuccessor operator.id operator.cls.name i)
    Except.ok (total + numOutFlows)) 0
  check (totalNumOutFlows = dag.graph.outDegree v) (.invalidOutFlow operator.id operator.cls.name)

/-- The output ports, except for operators that are outputs of the DAG. -/
def verifyOutPorts {Inner : Type} (dag : OpDag Inner) (v : ℕ) : Except VerifyError Unit :=
  if dag.outputsOf v = [] then verifyOutFlows dag v else .ok ()

/-- The numbers of ports of the inner DAG, and the inner DAG itself. -/
def verifyInner {n : ℕ} (verifyDag : NestedDag n → Except VerifyError Unit) (operator : DagOperator) :
    Option (NestedDag n) → Except VerifyError Unit
  | none => .ok ()
  | some inner => do
    check (inner.numInPorts = operator.cls.numInPorts)
      (.nonMatchingInputPorts operator.id operator.cls.name operator.cls.numInPorts inner.numInPorts)
    check (inner.numOutPorts = operator.cls.numOutPorts)
      (.nonMatchingOutputPorts operator.id operator.cls.name operator.cls.numOutPorts inner.numOutPorts)
    verifyDag inner

/-- `VerifyOperator(dag, op)`. -/
def verifyOperator {n : ℕ} (verifyDag : NestedDag n → Except VerifyError Unit)
    (dag : OpDag (NestedDag n)) (v : ℕ) : Except VerifyError Unit := do
  let operator := (dag.op v).operator
  check (dag.graph.inDegree v = operator.cls.numInPorts)
    (.wrongNumberOfInputs operator.id operator.cls.name (dag.graph.inDegree v) operator.cls.numInPorts)
  verifyOutPorts dag v
  verifyInner verifyDag operator (dag.op v).innerDag

/-- `VerifyDag(dag)`. -/
def verifyDag : (n : ℕ) → NestedDag n → Except VerifyError Unit
  | 0, dag => nomatch dag
  | n + 1, (dag : OpDag (NestedDag n)) => do
    check (dag.numOutPorts ≠ 0) .noOutputs
    dag.operators.forM (verifyOperator (verifyDag n) dag)

/-! ### What the checks say -/

theorem check_eq_ok {condition : Prop} [Decidable condition] {error : VerifyError} :
    check condition error = .ok () ↔ condition := by
  unfold check
  split <;> simp [*]

/-- The loop over the output ports adds up the numbers of their flows. -/
theorem foldlM_outFlows {flowsOn : ℕ → List Flow} {error : ℕ → VerifyError} {l : List ℕ} {start total : ℕ}
    (h : l.foldlM (fun total i => do
      check ((flowsOn i).length ≠ 0) (error i)
      Except.ok (total + (flowsOn i).length)) start = .ok total) :
    total = start + (l.flatMap flowsOn).length ∧ ∀ i ∈ l, flowsOn i ≠ [] := by
  induction l generalizing start with
  | nil =>
    cases h
    simp
  | cons i l ih =>
    obtain ⟨next, hvisit, hloop⟩ := bind_eq_ok.mp h
    obtain ⟨_, hcheck, hnext⟩ := bind_eq_ok.mp hvisit
    cases hnext
    have hi : (flowsOn i).length ≠ 0 := check_eq_ok.mp hcheck
    obtain ⟨htotal, hrest⟩ := ih hloop
    refine ⟨by rw [htotal, flatMap_cons, length_append]; omega, fun j hj => ?_⟩
    rcases mem_cons.mp hj with rfl | hj
    · exact fun hnil => hi (by rw [hnil]; rfl)
    · exact hrest j hj

variable {n : ℕ} {topSort : TopologicalSort ℕ}

/-- One level of an accepted plan. -/
structure VerifiedLevel (dag : OpDag (NestedDag n)) : Prop where
  outputs : dag.numOutPorts ≠ 0
  inDegree : ∀ v ∈ dag.operators, dag.graph.inDegree v = (dag.op v).operator.cls.numInPorts
  successor : ∀ v ∈ dag.operators, dag.outputsOf v = [] →
    ∀ i < (dag.op v).operator.cls.numOutPorts, dag.graph.outFlowsOn v i ≠ []
  outPort : ∀ v ∈ dag.operators, dag.outputsOf v = [] →
    ∀ f ∈ dag.graph.outFlows v, f.source.port < (dag.op v).operator.cls.numOutPorts
  innerInPorts : ∀ v ∈ dag.operators, ∀ inner ∈ (dag.op v).innerDag,
    inner.numInPorts = (dag.op v).operator.cls.numInPorts
  innerOutPorts : ∀ v ∈ dag.operators, ∀ inner ∈ (dag.op v).innerDag,
    inner.numOutPorts = (dag.op v).operator.cls.numOutPorts

variable {dag : OpDag (NestedDag n)} {v : ℕ}

/-- If all flows are counted on the ports below `m`, then there are no others. -/
theorem port_lt_of_count {dag : Dag (Vertex (NestedDag n))} {m : ℕ}
    (h : ((range m).flatMap (dag.outFlowsOn v)).length = (dag.outFlows v).length) :
    ∀ f ∈ dag.outFlows v, f.source.port < m := by
  have hperm := Firsts.perm_flatMap_filter (fun f : Flow => f.source.port) (nodup_range (n := m))
    (l := (dag.outFlows v).filter fun f => f.source.port < m) fun f hf =>
      mem_range.mpr (of_decide_eq_true (mem_filter.mp hf).2)
  have hsame : ((range m).flatMap fun i => ((dag.outFlows v).filter fun f => f.source.port < m).filter
      fun f => f.source.port = i) = (range m).flatMap (dag.outFlowsOn v) := by
    refine flatMap_congr fun i hi => ?_
    rw [filter_filter]
    refine filter_congr fun f _ => ?_
    have hi := mem_range.mp hi
    by_cases hport : f.source.port = i <;> simp [hport, hi]
  have hlen := hperm.length_eq
  rw [hsame, h] at hlen
  intro f hf
  exact of_decide_eq_true (length_filter_eq_length_iff.mp hlen.symm f hf)

theorem verifyOutFlows_eq_ok (h : verifyOutFlows dag v = .ok ()) :
    (∀ i < (dag.op v).operator.cls.numOutPorts, dag.graph.outFlowsOn v i ≠ []) ∧
      ∀ f ∈ dag.graph.outFlows v, f.source.port < (dag.op v).operator.cls.numOutPorts := by
  obtain ⟨total, hfold, hcheck⟩ := bind_eq_ok.mp h
  obtain ⟨htotal, hports⟩ := foldlM_outFlows hfold
  have hdeg : total = dag.graph.outDegree v := check_eq_ok.mp hcheck
  refine ⟨fun i hi => hports i (mem_range.mpr hi), port_lt_of_count ?_⟩
  rw [Nat.zero_add] at htotal
  exact htotal.symm.trans hdeg

/-- What the checks of one operator say. -/
theorem verifyOperator_eq_ok {verify : NestedDag n → Except VerifyError Unit}
    (h : verifyOperator verify dag v = .ok ()) :
    dag.graph.inDegree v = (dag.op v).operator.cls.numInPorts ∧ verifyOutPorts dag v = .ok () ∧
      ∀ inner ∈ (dag.op v).innerDag, inner.numInPorts = (dag.op v).operator.cls.numInPorts ∧
        inner.numOutPorts = (dag.op v).operator.cls.numOutPorts ∧ verify inner = .ok () := by
  obtain ⟨_, hdeg, hrest⟩ := bind_eq_ok.mp h
  obtain ⟨_, hout, hinner⟩ := bind_eq_ok.mp hrest
  refine ⟨check_eq_ok.mp hdeg, hout, fun inner (hsome : (dag.op v).innerDag = some inner) => ?_⟩
  rw [hsome] at hinner
  obtain ⟨_, hin, hrest⟩ := bind_eq_ok.mp hinner
  obtain ⟨_, hout, hverify⟩ := bind_eq_ok.mp hrest
  exact ⟨check_eq_ok.mp hin, check_eq_ok.mp hout, hverify⟩

theorem verifyDag_eq_ok (h : verifyDag (n + 1) dag = .ok ()) : VerifiedLevel dag ∧
      ∀ v ∈ dag.operators, ∀ inner ∈ (dag.op v).innerDag, verifyDag n inner = .ok () := by
  obtain ⟨_, houts, hloop⟩ := bind_eq_ok.mp h
  have hoperator := fun v hv => verifyOperator_eq_ok (forM_eq_ok.mp hloop v hv)
  have hflows : ∀ v ∈ dag.operators, dag.outputsOf v = [] → verifyOutFlows dag v = .ok () := by
    intro v hv hnil
    have hports := (hoperator v hv).2.1
    rwa [verifyOutPorts, if_pos hnil] at hports
  refine ⟨⟨check_eq_ok.mp houts, fun v hv => (hoperator v hv).1, ?_, ?_, ?_, ?_⟩, ?_⟩
  · exact fun v hv hnil => (verifyOutFlows_eq_ok (hflows v hv hnil)).1
  · exact fun v hv hnil => (verifyOutFlows_eq_ok (hflows v hv hnil)).2
  · exact fun v hv inner hinner => ((hoperator v hv).2.2 inner hinner).1
  · exact fun v hv inner hinner => ((hoperator v hv).2.2 inner hinner).2.1
  · exact fun v hv inner hinner => ((hoperator v hv).2.2 inner hinner).2.2

/-! ### What the checks are for -/

/-- The ports are `0`, `1`, … without gaps. -/
def Contiguous (ports : List ℕ) : Prop := ∀ i, i ∈ ports ↔ i < ports.length

/-- The input ports that the in-flows of an operator lead to. -/
def inFlowPorts (dag : OpDag (NestedDag n)) (v : ℕ) : List ℕ :=
  (dag.graph.inFlows v).map fun f => f.target.port

/-- One level of a plan in which every port is used as the other passes expect. -/
structure PortDiscipline (dag : OpDag (NestedDag n)) : Prop where
  inFlow : ∀ v ∈ dag.operators, ∀ i < (dag.op v).operator.cls.numInPorts,
    ∃ f, dag.graph.inFlowOn v i = some f ∧ dag.graph.predecessorOn v i = some f.source.op
  inPort : ∀ f ∈ dag.flows, f.target.port < (dag.op f.target.op).operator.cls.numInPorts
  outPort : ∀ f ∈ dag.flows, f.source.port < (dag.op f.source.op).operator.cls.numOutPorts
  innerInputs : ∀ v ∈ dag.operators, ∀ inner ∈ (dag.op v).innerDag,
    ∀ i, i ∈ inner.inputs.keys ↔ i < (dag.op v).operator.cls.numInPorts
  innerOutputs : ∀ v ∈ dag.operators, ∀ inner ∈ (dag.op v).innerDag,
    ∀ i, i ∈ inner.outputs.keys ↔ i < (dag.op v).operator.cls.numOutPorts

/-- What numbers of ports do not say: the ports that are used, whatever their number, are numbered without
    gaps, as `from_json` numbers the predecessors and the outputs.  The out-flows of outputs, which are not
    counted, are on output ports, and the types are set. -/
structure WithoutGaps (dag : OpDag (NestedDag n)) : Prop where
  inFlows : ∀ v ∈ dag.operators, Contiguous (inFlowPorts dag v)
  outputs : Contiguous dag.outputs.keys
  innerInputs : ∀ v ∈ dag.operators, ∀ inner ∈ (dag.op v).innerDag, Contiguous inner.inputs.keys
  outPort : ∀ v ∈ dag.operators, dag.outputsOf v ≠ [] →
    ∀ f ∈ dag.graph.outFlows v, f.source.port < (dag.op v).operator.cls.numOutPorts
  typed : ∀ v ∈ dag.operators, ∃ tuple, (dag.op v).operator.tuple = some tuple

/-- As many ports as there are below `k`, and all of them, are the ports below `k`. -/
theorem perm_range_of_length {ports : List ℕ} {k : ℕ} (hlen : ports.length = k)
    (h : ∀ i < k, i ∈ ports) : ports.Perm (range k) := by
  have hsub : (range k).Subperm ports := subperm_of_subset nodup_range fun i hi => h i (mem_range.mp hi)
  exact (hsub.perm_of_length_le (by rw [hlen, length_range])).symm

theorem contiguous_iff {ports : List ℕ} : Contiguous ports ↔ ∀ i < ports.length, i ∈ ports := by
  constructor
  · exact fun h i hi => (h i).mpr hi
  · intro h i
    rw [(perm_range_of_length rfl h).mem_iff, mem_range]

theorem numInPorts_eq (inner : NestedDag n) : inner.numInPorts = inner.inputs.keys.length := by
  cases n with
  | zero => cases inner
  | succ n => rfl

theorem numOutPorts_eq (inner : NestedDag n) : inner.numOutPorts = inner.outputs.keys.length := by
  cases n with
  | zero => cases inner
  | succ n =>
    rw [NestedDag.outputs, Map.keys, length_map]
    rfl

section

variable {dag : OpDag (NestedDag n)}

theorem VerifiedLevel.length_inFlowPorts (h : VerifiedLevel dag) {v : ℕ} (hv : v ∈ dag.operators) :
    (inFlowPorts dag v).length = (dag.op v).operator.cls.numInPorts := by
  rw [inFlowPorts, length_map]
  exact h.inDegree v hv

/-- The number of flows on a port is the number of times that the port is among the ports. -/
theorem length_inFlowsOn (v i : ℕ) :
    (dag.graph.inFlowsOn v i).length = (inFlowPorts dag v).count i := by
  rw [inFlowPorts, Dag.inFlowsOn, count, countP_map, countP_eq_length_filter]
  congr 1

theorem mem_inFlowPorts {f : Flow} (hf : f ∈ dag.flows) : f.target.port ∈ inFlowPorts dag f.target.op :=
  mem_map_of_mem (Dag.mem_inFlows.mpr ⟨hf, rfl⟩)

/-- An accepted operator whose in-flows are numbered has one on each port. -/
theorem VerifiedLevel.exists_inFlowOn (h : VerifiedLevel dag) {v : ℕ} (hv : v ∈ dag.operators)
    (hports : Contiguous (inFlowPorts dag v)) {i : ℕ} (hi : i < (dag.op v).operator.cls.numInPorts) :
    ∃ f, dag.graph.inFlowOn v i = some f := by
  have hperm := perm_range_of_length rfl fun i hi => (hports i).mpr hi
  have hone : (dag.graph.inFlowsOn v i).length = 1 := by
    rw [length_inFlowsOn, hperm.count_eq, h.length_inFlowPorts hv]
    exact count_eq_one_of_mem nodup_range (mem_range.mpr hi)
  obtain ⟨f, hf⟩ := length_eq_one_iff.mp hone
  exact ⟨f, Dag.single_eq_some.mpr hf⟩

/-- A level of an accepted plan whose ports have no gaps has the port discipline. -/
theorem VerifiedLevel.portDiscipline (h : VerifiedLevel dag) (hclosed : dag.Closed)
    (hgaps : WithoutGaps dag)
    (houts : ∀ v ∈ dag.operators, ∀ inner ∈ (dag.op v).innerDag, Contiguous inner.outputs.keys) :
    PortDiscipline dag where
  inFlow v hv i hi := by
    obtain ⟨f, hf⟩ := h.exists_inFlowOn hv (hgaps.inFlows v hv) hi
    exact ⟨f, hf, by rw [Dag.predecessorOn, hf, Option.map_some]⟩
  inPort f hf := by
    have hv := hclosed.target f hf
    rw [← h.length_inFlowPorts hv, ← hgaps.inFlows _ hv]
    exact mem_inFlowPorts hf
  outPort f hf := by
    have hv := hclosed.source f hf
    have hmem : f ∈ dag.graph.outFlows f.source.op := Dag.mem_outFlows.mpr ⟨hf, rfl⟩
    by_cases hnil : dag.outputsOf f.source.op = []
    · exact h.outPort _ hv hnil f hmem
    · exact hgaps.outPort _ hv hnil f hmem
  innerInputs v hv inner hinner i := by
    rw [hgaps.innerInputs v hv inner hinner i, ← numInPorts_eq, h.innerInPorts v hv inner hinner]
  innerOutputs v hv inner hinner i := by
    rw [houts v hv inner hinner i, ← numOutPorts_eq, h.innerOutPorts v hv inner hinner]

/-- With the discipline the in-flows are numbered. -/
theorem PortDiscipline.contiguous (hports : PortDiscipline dag) (h : VerifiedLevel dag) {v : ℕ}
    (hv : v ∈ dag.operators) : Contiguous (inFlowPorts dag v) := by
  refine contiguous_iff.mpr fun i hi => ?_
  rw [h.length_inFlowPorts hv] at hi
  obtain ⟨f, hf, -⟩ := hports.inFlow v hv i hi
  obtain ⟨hflow, rfl, rfl⟩ := Dag.mem_of_inFlowOn hf
  exact mem_inFlowPorts hflow

end

/-! ### Writing an accepted plan -/

theorem exists_mapM_iff {α β : Type} {l : List α} {f : α → Option β} :
    (∃ bs, l.mapM f = some bs) ↔ ∀ a ∈ l, ∃ b, f a = some b := by
  constructor
  · rintro ⟨bs, hbs⟩ a ha
    obtain ⟨b, -, hb⟩ := exists_of_mapM_eq_some hbs ha
    exact ⟨b, hb⟩
  · exact exists_mapM_eq_some

theorem exists_vertexJson {innerToJson : NestedDag n → Option Json} :
    (∃ json, vertexJson innerToJson dag v = some json) ↔ (∃ tuple, (dag.op v).operator.tuple = some tuple) ∧
      (∀ i < (dag.op v).operator.cls.numInPorts, ∃ f, dag.graph.inFlowOn v i = some f) ∧
      ∀ inner ∈ (dag.op v).innerDag, ∃ json, innerToJson inner = some json := by
  have hflows : (∀ i < (dag.op v).operator.cls.numInPorts, ∃ f, dag.graph.inFlowOn v i = some f) ↔
      ∃ fs, (range (dag.op v).operator.cls.numInPorts).mapM (dag.graph.inFlowOn v) = some fs := by
    rw [exists_mapM_iff]
    simp only [mem_range]
  rw [hflows]
  unfold vertexJson DagOperator.members
  cases (dag.op v).operator.tuple with
  | none => simp
  | some tuple =>
    cases (range (dag.op v).operator.cls.numInPorts).mapM (dag.graph.inFlowOn v) with
    | none => simp
    | some fs =>
      cases (dag.op v).innerDag with
      | none => simp
      | some inner => cases hjson : innerToJson inner <;> simp [hjson]

theorem exists_toJson_succ : (∃ json, toJson (n + 1) dag = some json) ↔
      (∀ v ∈ dag.operators, ∃ json, vertexJson (toJson n) dag v = some json) ∧
      ∀ i < dag.numOutPorts, i ∈ dag.outputs.keys := by
  have houts : (∀ i < dag.numOutPorts, i ∈ dag.outputs.keys) ↔
      ∃ tips, (range dag.outputs.entries.length).mapM dag.outputs.find = some tips := by
    rw [exists_mapM_iff]
    simp only [mem_range, Map.find_eq_some_iff, Map.keys, mem_map, Prod.exists, exists_and_right,
      exists_eq_right, PortedDag.numOutPorts]
  rw [houts, ← exists_mapM_iff, toJson]
  cases dag.operators.mapM (vertexJson (toJson n) dag) with
  | none => simp
  | some vertices =>
    cases (range dag.outputs.entries.length).mapM dag.outputs.find <;> simp

/-! ### The main result -/

/-- The plan is accepted on every level. -/
theorem onLevels_verifiedLevel {dag : NestedDag n} (h : verifyDag n dag = .ok ()) : OnLevels VerifiedLevel n dag := by
  induction n with
  | zero => cases dag
  | succ n ih =>
    obtain ⟨hlevel, hinner⟩ := verifyDag_eq_ok h
    exact ⟨hlevel, fun v hv inner hmem => ih (hinner v hv inner hmem)⟩

theorem WithoutGaps.contiguous_outputs {dag : NestedDag n} (h : OnLevels WithoutGaps n dag) :
    Contiguous dag.outputs.keys := by
  cases n with
  | zero => cases dag
  | succ n => exact h.1.outputs

theorem portDiscipline_of_withoutGaps {dag : NestedDag n} (h : OnLevels VerifiedLevel n dag)
    (hclosed : Everywhere PortedDag.Closed n dag) (hgaps : OnLevels WithoutGaps n dag) :
    OnLevels PortDiscipline n dag := by
  induction n with
  | zero => cases dag
  | succ n ih =>
    refine ⟨h.1.portDiscipline hclosed.1 hgaps.1 fun v hv inner hinner =>
      WithoutGaps.contiguous_outputs (hgaps.2 v hv inner hinner), fun v hv inner hinner => ?_⟩
    exact ih (h.2 v hv inner hinner) (hclosed.2 v hv inner hinner) (hgaps.2 v hv inner hinner)

/-- An accepted plan with the port discipline is written if and only if no port has a gap. -/
theorem exists_toJson_iff {dag : NestedDag n} (hverified : OnLevels VerifiedLevel n dag)
    (hports : OnLevels PortDiscipline n dag) :
    (∃ json, toJson n dag = some json) ↔ OnLevels WithoutGaps n dag := by
  induction n with
  | zero => cases dag
  | succ n ih =>
    have hinner (v : ℕ) (hv : v ∈ PortedDag.operators dag) (inner : NestedDag n)
        (hmem : inner ∈ (PortedDag.op dag v).innerDag) :=
      ih (hverified.2 v hv inner hmem) (hports.2 v hv inner hmem)
    have houts : (∀ i < PortedDag.numOutPorts dag, i ∈ (PortedDag.outputs dag).keys) ↔
        Contiguous (PortedDag.outputs dag).keys := by
      rw [contiguous_iff, Map.keys, length_map]
      rfl
    rw [exists_toJson_succ, houts]
    constructor
    · rintro ⟨hverts, houts⟩
      refine ⟨⟨fun v hv => hports.1.contiguous hverified.1 hv, houts, fun v hv inner hmem => ?_,
        fun v hv _ f hf => ?_, fun v hv => (exists_vertexJson.mp (hverts v hv)).1⟩,
        fun v hv inner hmem => ?_⟩
      · refine contiguous_iff.mpr fun i hi => ?_
        rw [← numInPorts_eq, hverified.1.innerInPorts v hv inner hmem] at hi
        exact (hports.1.innerInputs v hv inner hmem i).mpr hi
      · obtain ⟨hflow, rfl⟩ := Dag.mem_outFlows.mp hf
        exact hports.1.outPort f hflow
      · exact (hinner v hv inner hmem).mp ((exists_vertexJson.mp (hverts v hv)).2.2 inner hmem)
    · rintro ⟨hgaps, hgapsInner⟩
      refine ⟨fun v hv => exists_vertexJson.mpr ⟨hgaps.typed v hv, fun i hi => ?_,
        fun inner hmem => (hinner v hv inner hmem).mpr (hgapsInner v hv inner hmem)⟩, hgaps.outputs⟩
      exact (hports.1.inFlow v hv i hi).imp fun _ h => h.1

/-! ### Canonicalizing an accepted plan -/

/-- With one in-flow on each port, no two flows have the same target. -/
theorem PortDiscipline.nodup_target (h : PortDiscipline dag) (hclosed : dag.Closed) :
    (dag.flows.map Flow.target).Nodup := by
  rw [nodup_iff_count_le_one]
  intro tip
  have hcount : (dag.flows.map Flow.target).count tip = (dag.graph.inFlowsOn tip.op tip.port).length := by
    rw [Dag.inFlowsOn, Dag.inFlows, filter_filter, count, countP_map, countP_eq_length_filter]
    congr 1
    refine filter_congr fun f _ => ?_
    rw [Bool.eq_iff_iff]
    simp only [Function.comp_apply, beq_iff_eq, Bool.and_eq_true, decide_eq_true_eq]
    constructor
    · rintro rfl
      exact ⟨rfl, rfl⟩
    · rintro ⟨hport, hop⟩
      exact (FlowTip.mk.injEq _ _ _ _).mpr ⟨hop, hport⟩
  rw [hcount]
  by_cases hnil : dag.graph.inFlowsOn tip.op tip.port = []
  · rw [hnil]
    exact Nat.zero_le 1
  · obtain ⟨f, hf⟩ := exists_mem_of_ne_nil _ hnil
    obtain ⟨hin, hport⟩ := mem_filter.mp hf
    obtain ⟨hflow, hop⟩ := Dag.mem_inFlows.mp hin
    have hlt := h.inPort f hflow
    rw [of_decide_eq_true hport, hop] at hlt
    obtain ⟨g, hg, -⟩ := h.inFlow tip.op (hop ▸ hclosed.target f hflow) tip.port hlt
    rw [Dag.single_eq_some.mp hg]
    exact Nat.le_refl 1

section

variable {canonicalizeInner : NestedDag n → Option (NestedDag n)}
  {dag dag' : OpDag (NestedDag n)}

/-- A visit canonicalizes the inner DAG and leaves the other operators as they are. -/
theorem orderInputs_eq_some (h : orderInputs canonicalizeInner dag v = some dag') :
    (∀ inner ∈ (dag.op v).innerDag, ∃ c, canonicalizeInner inner = some c) ∧
      ∀ u ≠ v, dag'.op u = dag.op u := by
  unfold orderInputs at h
  cases hinner : (dag.op v).innerDag with
  | none =>
    rw [hinner] at h
    cases h
    exact ⟨nofun, fun _ _ => rfl⟩
  | some inner =>
    rw [hinner] at h
    obtain ⟨c, hc, h⟩ := Option.bind_eq_some_iff.mp h
    obtain ⟨_, -, h⟩ := Option.bind_eq_some_iff.mp h
    obtain ⟨_, -, h⟩ := Option.bind_eq_some_iff.mp h
    obtain ⟨_, -, h⟩ := Option.bind_eq_some_iff.mp h
    obtain ⟨_, -, h⟩ := Option.bind_eq_some_iff.mp h
    cases h
    refine ⟨fun inner' hinner' => ?_, fun u hu => Function.update_of_ne hu ..⟩
    cases hinner'
    exact ⟨c, hc⟩

theorem exists_of_foldlM_orderInputs {vs : List ℕ} (hnd : vs.Nodup)
    (h : vs.foldlM (orderInputs canonicalizeInner) dag = some dag') :
    ∀ v ∈ vs, ∀ inner ∈ (dag.op v).innerDag, ∃ c, canonicalizeInner inner = some c := by
  induction vs generalizing dag with
  | nil => exact nofun
  | cons v vs ih =>
    obtain ⟨dag1, hvisit, hrest⟩ := foldlM_cons_eq_some.mp h
    obtain ⟨hnew, hnd⟩ := nodup_cons.mp hnd
    obtain ⟨hinner, hothers⟩ := orderInputs_eq_some hvisit
    intro u hu inner hmem
    rcases mem_cons.mp hu with rfl | hu
    · exact hinner inner hmem
    · refine ih hnd hrest u hu inner ?_
      rwa [hothers u fun heq => hnew (heq ▸ hu)]

/-- What the level above needs to know of a canonicalized plan. -/
def KeepsInputs (dag c : NestedDag n) : Prop :=
  c.operators.Perm dag.operators ∧ c.inputs = dag.inputs

theorem closed_inputs {inner : NestedDag n} (h : Everywhere PortedDag.Closed n inner) :
    ∀ e ∈ inner.inputs.entries, e.2.op ∈ inner.operators := by
  cases n with
  | zero => cases inner
  | succ n => exact h.1.input

/-- The operators of a level with the discipline can all be visited. -/
theorem PortDiscipline.orderable (h : PortDiscipline dag) (hclosed : dag.Closed)
    (hacyc : dag.Acyclic)
    (hinner : ∀ v ∈ dag.operators, ∀ inner ∈ (dag.op v).innerDag, Everywhere PortedDag.Closed n inner ∧
      ∃ c, canonicalize topSort n inner = some c ∧ KeepsInputs inner c) :
    Orderable (canonicalize topSort n) dag (canonicalForm topSort n) := by
  have hform (v : ℕ) (hv : v ∈ dag.operators) (inner : NestedDag n)
      (hmem : inner ∈ (dag.op v).innerDag) :
      canonicalize topSort n inner = some (canonicalForm topSort n inner) ∧
        KeepsInputs inner (canonicalForm topSort n inner) := by
    obtain ⟨-, c, hc, hkeeps⟩ := hinner v hv inner hmem
    rw [canonicalForm, hc]
    exact ⟨rfl, hkeeps⟩
  refine ⟨hclosed, hacyc, h.nodup_target hclosed, fun v hv inner hmem => (hform v hv inner hmem).1,
    fun v hv inner hmem i hi => ?_, fun f hf _ _ => h.inPort f hf, fun v hv inner hmem i hi => ?_,
    fun v hv inner hmem e he => ?_⟩
  · obtain ⟨f, hf, -⟩ := h.inFlow v hv i hi
    obtain ⟨hflow, rfl, rfl⟩ := Dag.mem_of_inFlowOn hf
    exact ⟨f, hflow, rfl⟩
  · obtain ⟨tip, htip⟩ := MultiMap.mem_keys.mp ((h.innerInputs v hv inner hmem i).mpr hi)
    rw [(hform v hv inner hmem).2.2]
    exact ne_nil_of_mem (MultiMap.mem_equalRange.mpr htip)
  · rw [(hform v hv inner hmem).2.2] at he
    exact (hform v hv inner hmem).2.1.mem_iff.mpr (closed_inputs (hinner v hv inner hmem).1 e he)

end

/-- A plan with the discipline is canonicalized if and only if its labels are distinct on every level. -/
theorem exists_canonicalize_iff (hsort : IsTopologicalSort topSort) {dag : NestedDag n}
    (hports : OnLevels PortDiscipline n dag) (hclosed : Everywhere PortedDag.Closed n dag)
    (hacyc : Everywhere PortedDag.Acyclic n dag) :
    ((∃ c, canonicalize topSort n dag = some c) ↔ DistinctLabels topSort n dag) ∧
      ∀ c, canonicalize topSort n dag = some c → KeepsInputs dag c := by
  induction n with
  | zero => cases dag
  | succ n ih =>
    have hinner (v : ℕ) (hv : v ∈ PortedDag.operators dag) (inner : NestedDag n)
        (hmem : inner ∈ (PortedDag.op dag v).innerDag) :=
      ih (hports.2 v hv inner hmem) (hclosed.2 v hv inner hmem) (hacyc.2 v hv inner hmem)
    -- one level, once the inner DAGs have their canonical forms
    have hlevel (hforms : ∀ v ∈ PortedDag.operators dag, ∀ inner ∈ (PortedDag.op dag v).innerDag,
        ∃ c, canonicalize topSort n inner = some c) : ∃ dag' label,
        (PortedDag.operators dag).foldlM (orderInputs (canonicalize topSort n)) dag = some dag' ∧
        OrderedUpTo dag (canonicalForm topSort n) (PortedDag.operators dag) dag' ∧
        combinedLabels topSort dag' = some (dag'.operators.map label) ∧
        (Distinct label dag'.operators →
          relabel topSort dag' = some (renumbered dag' (sortBy label dag'.operators))) ∧
        ∀ c, relabel topSort dag' = some c → Distinct label dag'.operators := by
      obtain ⟨dag', hfold, hdone⟩ := foldlM_orderInputs <|
        hports.1.orderable hclosed.1 hacyc.1 fun v hv inner hmem =>
          ⟨hclosed.2 v hv inner hmem, (hforms v hv inner hmem).imp fun c hc =>
            ⟨hc, (hinner v hv inner hmem).2 c hc⟩⟩
      obtain ⟨label, -, hlabs, hrelabel⟩ := relabel_spec hsort (hdone.closed hclosed.1)
        (hdone.acyclic hclosed.1 hacyc.1)
      exact ⟨dag', label, hfold, hdone, hlabs, hrelabel⟩
    have hforward (c : NestedDag (n + 1)) (hc : canonicalize topSort (n + 1) dag = some c) :
        DistinctLabels topSort (n + 1) dag ∧ KeepsInputs dag c := by
      obtain ⟨dag1, hfold1, hc⟩ := Option.bind_eq_some_iff.mp hc
      have hforms := exists_of_foldlM_orderInputs hclosed.1.nodup hfold1
      obtain ⟨dag', label, hfold, hdone, hlabs, hrelabel, hdist⟩ := hlevel hforms
      obtain rfl := Option.some.inj (hfold1.symm.trans hfold)
      have hdist := hdist c hc
      cases hc.symm.trans (hrelabel hdist)
      refine ⟨⟨⟨dag1, _, hfold, hlabs, ?_⟩, fun v hv inner hmem =>
        (hinner v hv inner hmem).1.mp (hforms v hv inner hmem)⟩, ?_, hdone.inputs⟩
      · exact List.Nodup.map_on hdist (hdone.closed hclosed.1).nodup
      · show (sortBy _ dag1.operators).Perm (PortedDag.operators dag)
        rw [← hdone.operators]
        exact sortBy_perm _ _
    refine ⟨⟨fun ⟨c, hc⟩ => (hforward c hc).1, ?_⟩, fun c hc => (hforward c hc).2⟩
    rintro ⟨⟨dag1, labels, hfold1, hlabs1, hnd⟩, hlabsInner⟩
    obtain ⟨dag', label, hfold, -, hlabs, hrelabel, -⟩ := hlevel fun v hv inner hmem =>
      (hinner v hv inner hmem).1.mpr (hlabsInner v hv inner hmem)
    obtain rfl := Option.some.inj (hfold1.symm.trans hfold)
    obtain rfl := Option.some.inj (hlabs1.symm.trans hlabs)
    have hdist : Distinct label dag1.operators := fun u hu v hv heq =>
      inj_on_of_nodup_map hnd hu hv heq
    exact ⟨_, Option.bind_eq_some_iff.mpr ⟨dag1, hfold, hrelabel hdist⟩⟩

/-- One sink, and no input port of an operator that is fed by two inputs of the DAG. -/
structure OneSink {Inner : Type} (dag : OpDag Inner) : Prop where
  sink : ∃ sink ∈ dag.operators, ∀ v ∈ dag.operators, dag.graph.outFlows v = [] ↔ v = sink
  input : (dag.inputs.entries.map Prod.snd).Nodup

theorem canonicalizable_of_portDiscipline {dag : NestedDag n} (h : OnLevels PortDiscipline n dag)
    (hclosed : Everywhere PortedDag.Closed n dag) (hacyc : Everywhere PortedDag.Acyclic n dag)
    (hsink : Everywhere OneSink n dag) : Canonicalizable n dag := by
  induction n with
  | zero => cases dag
  | succ n ih =>
    refine ⟨⟨hclosed.1, hacyc.1, hsink.1.sink, h.1.nodup_target hclosed.1, hsink.1.input⟩,
      fun v hv inner hinner => ⟨?_, ?_, ?_, h.1.innerInputs v hv inner hinner⟩⟩
    · exact ih (h.2 v hv inner hinner) (hclosed.2 v hv inner hinner) (hacyc.2 v hv inner hinner)
        (hsink.2 v hv inner hinner)
    · intro i hi
      obtain ⟨f, hf, -⟩ := h.1.inFlow v hv i hi
      obtain ⟨hflow, rfl, rfl⟩ := Dag.mem_of_inFlowOn hf
      exact ⟨f, hflow, rfl⟩
    · rintro f hf rfl
      exact h.1.inPort f hf

/-- Two constants that a join reads, the second one on the given port. -/
def joinOfConstants (port : ℕ) : NestedDag 1 where
  operators := [0, 1, 2]
  op v := ⟨⟨v, some [.atomic "long"], "", if v = 2 then .join 1 else .constantTuple ["1"]⟩, none⟩
  flows := [⟨⟨0, 0⟩, ⟨2, 0⟩⟩, ⟨⟨1, 0⟩, ⟨2, port⟩⟩]
  inputs := ∅
  outputs := (∅ : Map ℕ FlowTip).assign 0 ⟨2, 0⟩

/-- Two constants that are both outputs. -/
def constantsPlan : NestedDag 1 where
  operators := [0, 1]
  op v := ⟨⟨v, some [.atomic "long"], "", .constantTuple ["1"]⟩, none⟩
  flows := []
  inputs := ∅
  outputs := ((∅ : Map ℕ FlowTip).assign 0 ⟨0, 0⟩).assign 1 ⟨1, 0⟩

theorem joinOfConstants_closed (port : ℕ) : Everywhere PortedDag.Closed 1 (joinOfConstants port) := by
  refine ⟨⟨by simp [joinOfConstants], by simp [joinOfConstants], by simp [joinOfConstants],
    by simp [joinOfConstants], by simp [joinOfConstants, Map.mem_assign]⟩, fun v _ inner hinner => ?_⟩
  simp [joinOfConstants] at hinner

theorem joinOfConstants_acyclic : Everywhere PortedDag.Acyclic 1 (joinOfConstants 1) := by
  have hranked : Ranked (PortedDag.edges (joinOfConstants 1)) id := by
    simp [Ranked, joinOfConstants, PortedDag.edges]
  exact ⟨hranked.acyclic, by simp [joinOfConstants]⟩

theorem joinOfConstants_withoutGaps : OnLevels WithoutGaps 1 (joinOfConstants 1) := by
  have hports : ∀ v ∈ PortedDag.operators (joinOfConstants 1),
      ∀ i < (inFlowPorts (joinOfConstants 1) v).length, i ∈ inFlowPorts (joinOfConstants 1) v := by decide
  refine ⟨⟨fun v hv => contiguous_iff.mpr (hports v hv), contiguous_iff.mpr (by decide), ?_, ?_, ?_⟩, ?_⟩
  · simp [joinOfConstants]
  · simp [joinOfConstants, Dag.outFlows, PortedDag.graph, OperatorClass.numOutPorts]
  · simp [joinOfConstants]
  · simp [joinOfConstants]

theorem joinOfConstants_oneSink : Everywhere OneSink 1 (joinOfConstants 1) := by
  refine ⟨⟨⟨2, by simp [joinOfConstants], ?_⟩, by simp [joinOfConstants]⟩, by simp [joinOfConstants]⟩
  simp [joinOfConstants, Dag.outFlows, PortedDag.graph]

end Jitq.Optimize

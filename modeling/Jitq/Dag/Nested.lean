import Jitq.Dag.Dag
import Jitq.Dag.DagOperator
import Jitq.Lib.Graphs
import Jitq.Lib.SortedMap

namespace Jitq

open SortedMap List Option

/-! # DAGs with ports and inner DAGs

The whole class `DAG`: a graph of operators, some of which have an inner DAG, and maps from the input
and output ports of the DAG to ports of operators.  `NestedDag n` are the DAGs in which inner DAGs are
nested less than `n` deep. -/

/-- `DAG`, over any type of vertices. -/
@[ext] structure PortedDag (Op : Type) where
  operators : List ℕ
  op : ℕ → Op
  flows : List Flow
  inputs : MultiMap ℕ FlowTip
  outputs : Map ℕ FlowTip

namespace PortedDag

variable {Op : Type}

variable (dag : PortedDag Op)

/-- The graph alone. -/
def graph : Dag Op := ⟨dag.operators, dag.op, dag.flows, dag.outputs.entries.map Prod.snd⟩

/-- The flows as pairs of operators. -/
def edges : List (ℕ × ℕ) := dag.flows.map fun f => (f.source.op, f.target.op)

def Acyclic : Prop := Graphs.Acyclic dag.edges

/-- `HasCycle()`, which starts a search at an operator without in-flows. -/
def hasCycle : Bool :=
  dag.operators.any (fun v => dag.graph.inDegree v = 0) && Graphs.hasCycle dag.edges dag.operators

/-- `AddFlow(source, target)`. -/
def addFlow (source target : FlowTip) : Option (PortedDag Op) :=
  let dag' := { dag with flows := dag.flows ++ [⟨source, target⟩] }
  if source.op ∈ dag.operators ∧ target.op ∈ dag.operators ∧ dag'.hasCycle = false then
    some dag'
  else
    none

/-- `add_input(dag_input_port, input)`. -/
def addInput (dagInputPort : ℕ) (input : FlowTip) : Option (PortedDag Op) :=
  if input.op ∈ dag.operators then
    some { dag with inputs := dag.inputs.emplace dagInputPort input }
  else
    none

/-- `set_output(dag_output_port, output)`. -/
def setOutput (dagOutputPort : ℕ) (output : FlowTip) : Option (PortedDag Op) :=
  if output.op ∈ dag.operators then
    some { dag with outputs := dag.outputs.assign dagOutputPort output }
  else
    none

/-- `num_in_ports()`. -/
def numInPorts : ℕ := dag.inputs.keys.length

/-- `num_out_ports()`. -/
def numOutPorts : ℕ := dag.outputs.entries.length

/-- `input(dag_input_port)`, which has to be one. -/
def input (port : ℕ) : Option FlowTip :=
  match dag.inputs.equalRange port with
  | [tip] => some tip
  | _ => none

/-- `output()`, which has to be the only one. -/
def output : Option FlowTip :=
  if dag.outputs.entries.length = 1 then dag.outputs.find 0 else none

/-- `outputs(op)`. -/
def outputsOf (v : ℕ) : List (ℕ × FlowTip) := dag.outputs.entries.filter fun e => e.2.op = v

/-- Flows, inputs and outputs refer to operators of the DAG, each of which is there once. -/
structure Closed (dag : PortedDag Op) : Prop where
  nodup : dag.operators.Nodup
  source : ∀ f ∈ dag.flows, f.source.op ∈ dag.operators
  target : ∀ f ∈ dag.flows, f.target.op ∈ dag.operators
  input : ∀ e ∈ dag.inputs.entries, e.2.op ∈ dag.operators
  output : ∀ e ∈ dag.outputs.entries, e.2.op ∈ dag.operators

section

variable {dag : PortedDag Op}

theorem Closed.outFlows_eq_nil (h : dag.Closed) {v : ℕ} (hv : v ∉ dag.operators) : dag.graph.outFlows v = [] := by
  apply filter_eq_nil_iff.mpr
  intro f hf hsrc
  exact hv (of_decide_eq_true hsrc ▸ h.source f hf)

theorem hasCycle_eq_false (h : dag.Acyclic) : dag.hasCycle = false := by
  rw [hasCycle, Graphs.hasCycle_eq_false h, Bool.and_false]

/-- Flows of a DAG without cycles are added one after the other. -/
theorem foldlM_addFlow {fs : List Flow} (hacyc : { dag with flows := dag.flows ++ fs }.Acyclic)
    (hfs : ∀ f ∈ fs, f.source.op ∈ dag.operators ∧ f.target.op ∈ dag.operators) :
    fs.foldlM (fun dag f => dag.addFlow f.source f.target) dag = some { dag with flows := dag.flows ++ fs } := by
  induction fs generalizing dag with
  | nil => simp
  | cons f fs ih =>
    obtain ⟨hsrc, htgt⟩ := hfs f mem_cons_self
    have hadd : dag.addFlow f.source f.target = some { dag with flows := dag.flows ++ [f] } := by
      refine if_pos ⟨hsrc, htgt, hasCycle_eq_false (Graphs.Acyclic.mono hacyc fun e he => ?_)⟩
      obtain ⟨g, hg, rfl⟩ := mem_map.mp he
      refine mem_map_of_mem ?_
      simp only [mem_append, mem_cons, not_mem_nil, or_false] at hg ⊢
      exact hg.imp_right .inl
    rw [foldlM_cons, hadd, bind_eq_bind, bind_some]
    refine (ih ?_ ?_).trans ?_
    · simpa using hacyc
    · exact fun g hg => hfs g (mem_cons_of_mem f hg)
    · simp

theorem foldlM_addInput {es : List (ℕ × FlowTip)}
    (h : ∀ e ∈ es, e.2.op ∈ dag.operators) : es.foldlM (fun dag e => dag.addInput e.1 e.2) dag =
      some { dag with inputs := es.foldl (fun m e => m.emplace e.1 e.2) dag.inputs } := by
  induction es generalizing dag with
  | nil => rfl
  | cons e es ih =>
    rw [foldlM_cons, addInput, if_pos (h e mem_cons_self), bind_eq_bind, bind_some]
    exact ih fun x hx => h x (mem_cons_of_mem e hx)

theorem foldlM_setOutput {es : List (ℕ × FlowTip)}
    (h : ∀ e ∈ es, e.2.op ∈ dag.operators) : es.foldlM (fun dag e => dag.setOutput e.1 e.2) dag =
      some { dag with outputs := es.foldl (fun m e => m.assign e.1 e.2) dag.outputs } := by
  induction es generalizing dag with
  | nil => rfl
  | cons e es ih =>
    rw [foldlM_cons, setOutput, if_pos (h e mem_cons_self), bind_eq_bind, bind_some]
    exact ih fun x hx => h x (mem_cons_of_mem e hx)

end

end PortedDag

/-- An operator with its inner DAG, if it has one. -/
structure Vertex (Inner : Type) where
  operator : DagOperator
  innerDag : Option Inner
  deriving Inhabited

/-- A DAG of operators whose inner DAGs are of type `Inner`. -/
abbrev OpDag (Inner : Type) := PortedDag (Vertex Inner)

/-- The ids of the operators. -/
def PortedDag.idOf {Inner : Type} (dag : OpDag Inner) (v : ℕ) : ℕ := (dag.op v).operator.id

/-- DAGs with inner DAGs, nested less than `n` deep. -/
abbrev NestedDag : ℕ → Type
  | 0 => Empty
  | n + 1 => OpDag (NestedDag n)

namespace NestedDag

def operators : {n : ℕ} → NestedDag n → List ℕ
  | 0, dag => nomatch dag
  | _ + 1, dag => PortedDag.operators dag

def inputs : {n : ℕ} → NestedDag n → MultiMap ℕ FlowTip
  | 0, dag => nomatch dag
  | _ + 1, dag => PortedDag.inputs dag

def numInPorts : {n : ℕ} → NestedDag n → ℕ
  | 0, dag => nomatch dag
  | _ + 1, dag => PortedDag.numInPorts dag

def numOutPorts : {n : ℕ} → NestedDag n → ℕ
  | 0, dag => nomatch dag
  | _ + 1, dag => PortedDag.numOutPorts dag

def outputs : {n : ℕ} → NestedDag n → Map ℕ FlowTip
  | 0, dag => nomatch dag
  | _ + 1, dag => PortedDag.outputs dag

def output : {n : ℕ} → NestedDag n → Option FlowTip
  | 0, dag => nomatch dag
  | _ + 1, dag => PortedDag.output dag

/-- The operator of a vertex. -/
def operator : {n : ℕ} → NestedDag n → ℕ → DagOperator
  | 0, dag => nomatch dag
  | _ + 1, dag => fun v => (PortedDag.op dag v).operator

def idOf : {n : ℕ} → NestedDag n → ℕ → ℕ
  | 0, dag => nomatch dag
  | _ + 1, dag => PortedDag.idOf dag

def setInputs : {n : ℕ} → NestedDag n → MultiMap ℕ FlowTip → NestedDag n
  | 0, dag => nomatch dag
  | _ + 1, dag => fun inputs => { (dag : PortedDag _) with inputs := inputs }

def addInput : {n : ℕ} → NestedDag n → ℕ → FlowTip → Option (NestedDag n)
  | 0, dag => nomatch dag
  | _ + 1, dag => PortedDag.addInput dag

section

variable {n : ℕ}

section

variable (inner : NestedDag n)

variable (m : MultiMap ℕ FlowTip)

@[simp] theorem inputs_setInputs : (inner.setInputs m).inputs = m := by
  cases n with
  | zero => cases inner
  | succ n => rfl

@[simp] theorem idOf_setInputs : (inner.setInputs m).idOf = inner.idOf := by
  cases n with
  | zero => cases inner
  | succ n => rfl

@[simp] theorem operators_setInputs : (inner.setInputs m).operators = inner.operators := by
  cases n with
  | zero => cases inner
  | succ n => rfl

@[simp] theorem setInputs_setInputs (m m' : MultiMap ℕ FlowTip) :
    (inner.setInputs m).setInputs m' = inner.setInputs m' := by
  cases n with
  | zero => cases inner
  | succ n => rfl

@[simp] theorem setInputs_inputs : inner.setInputs inner.inputs = inner := by
  cases n with
  | zero => cases inner
  | succ n => rfl

end

end

theorem foldlM_addInput {n : ℕ} {dag : NestedDag n} {m : MultiMap ℕ FlowTip}
    (h : ∀ e ∈ m.entries, e.2.op ∈ dag.operators) :
    m.entries.foldlM (fun dag e => dag.addInput e.1 e.2) (dag.setInputs ∅) = some (dag.setInputs m) := by
  cases n with
  | zero => cases dag
  | succ n =>
    refine (@PortedDag.foldlM_addInput _ { (dag : PortedDag _) with inputs := ∅ } m.entries h).trans ?_
    congr 2
    exact MultiMap.ext (MultiMap.entries_foldl_emplace m.sorted)

end NestedDag

/-! ### All levels -/

/-- A property of the DAG and of the inner DAGs on all levels. -/
def Everywhere (P : {Inner : Type} → OpDag Inner → Prop) : (n : ℕ) → NestedDag n → Prop
  | 0, dag => nomatch dag
  | n + 1, (dag : OpDag (NestedDag n)) =>
    P dag ∧ ∀ v ∈ dag.operators, ∀ inner ∈ (dag.op v).innerDag, Everywhere P n inner

theorem everywhere_succ {P : {Inner : Type} → OpDag Inner → Prop} {n : ℕ}
    {dag : OpDag (NestedDag n)} :
    Everywhere P (n + 1) dag ↔
      P dag ∧ ∀ v ∈ dag.operators, ∀ inner ∈ (dag.op v).innerDag, Everywhere P n inner := Iff.rfl

/-- A property of the DAG and of the inner DAGs on all levels, which may look at the next level. -/
def OnLevels (P : {m : ℕ} → OpDag (NestedDag m) → Prop) : (n : ℕ) → NestedDag n → Prop
  | 0, dag => nomatch dag
  | n + 1, (dag : OpDag (NestedDag n)) =>
    P dag ∧ ∀ v ∈ dag.operators, ∀ inner ∈ (dag.op v).innerDag, OnLevels P n inner

end Jitq

import Mathlib.Data.List.Basic
import Mathlib.Data.List.Perm.Basic

namespace Jitq

open List

/-! # Plans as directed acyclic graphs

`DAG` is a graph of operators.  A flow leads from an output port of one operator to an input port of
another, and the outputs of the plan are ports of operators.  Operators are C++ objects, so here they
are numbers (their addresses) with a map to what they are.

The functions of the class `assert` the degrees they rely on: `in_flow` and `out_flow` are partial. -/

/-- A port of an operator. -/
structure FlowTip where
  op : ℕ
  port : ℕ
  deriving DecidableEq

structure Flow where
  source : FlowTip
  target : FlowTip
  deriving DecidableEq

/-- The tip with another name for its operator. -/
def FlowTip.rename (ρ : ℕ → ℕ) (tip : FlowTip) : FlowTip := ⟨ρ tip.op, tip.port⟩

def Flow.rename (ρ : ℕ → ℕ) (f : Flow) : Flow := ⟨f.source.rename ρ, f.target.rename ρ⟩

/-- `DAG`, over any type of operators. -/
structure Dag (Op : Type) where
  operators : List ℕ
  op : ℕ → Op
  flows : List Flow
  outputs : List FlowTip

namespace Dag

variable {Op : Type}

/-! ### Flows -/

variable (dag : Dag Op)

variable (v : ℕ)

def inFlows : List Flow := dag.flows.filter fun f => f.target.op = v

def outFlows : List Flow := dag.flows.filter fun f => f.source.op = v

variable (v port : ℕ)

def inFlowsOn : List Flow := (dag.inFlows v).filter fun f => f.target.port = port

def outFlowsOn : List Flow := (dag.outFlows v).filter fun f => f.source.port = port

def inDegree : ℕ := (dag.inFlows v).length

def outDegree : ℕ := (dag.outFlows v).length

/-- The flow of a range that is asserted to have exactly one. -/
def single : List Flow → Option Flow
  | [f] => some f
  | _ => none

/-- `in_flow(op)`. -/
def inFlow : Option Flow := single (dag.inFlows v)

/-- `in_flow(op, target_port)`. -/
def inFlowOn : Option Flow := single (dag.inFlowsOn v port)

/-- `out_flow(op)`. -/
def outFlow : Option Flow := single (dag.outFlows v)

/-- `predecessor(op)`. -/
def predecessor : Option ℕ := (dag.inFlow v).map fun f => f.source.op

/-- `predecessor(op, target_port)`. -/
def predecessorOn : Option ℕ := (dag.inFlowOn v port).map fun f => f.source.op

/-- `successor(op)`. -/
def successor : Option ℕ := (dag.outFlow v).map fun f => f.target.op

variable {dag : Dag Op} {v : ℕ} {f : Flow}

@[simp] theorem mem_inFlows : f ∈ dag.inFlows v ↔ f ∈ dag.flows ∧ f.target.op = v := by
  simp [inFlows]

@[simp] theorem mem_outFlows : f ∈ dag.outFlows v ↔ f ∈ dag.flows ∧ f.source.op = v := by
  simp [outFlows]

theorem single_eq_some {fs : List Flow} : single fs = some f ↔ fs = [f] := by
  match fs with
  | [] => simp [single]
  | [g] => simp [single]
  | _ :: _ :: _ => simp [single]

theorem mapM_single {g : ℕ → List Flow} {l : List ℕ} (h : ∀ i ∈ l, ∃ f, single (g i) = some f) :
    l.mapM (fun i => single (g i)) = some (l.flatMap g) := by
  induction l with
  | nil => rfl
  | cons i l ih =>
    obtain ⟨f, hf⟩ := h i mem_cons_self
    rw [mapM_cons, hf, ih fun j hj => h j (mem_cons_of_mem i hj), flatMap_cons, single_eq_some.mp hf]
    rfl

theorem mem_of_inFlow (h : dag.inFlow v = some f) : f ∈ dag.flows ∧ f.target.op = v := by
  rw [← mem_inFlows, single_eq_some.mp h]
  exact mem_singleton_self f

theorem mem_of_inFlowOn {port : ℕ} (h : dag.inFlowOn v port = some f) :
    f ∈ dag.flows ∧ f.target.op = v ∧ f.target.port = port := by
  have hmem : f ∈ dag.inFlowsOn v port := single_eq_some.mp h ▸ mem_singleton_self f
  obtain ⟨hin, hport⟩ := mem_filter.mp hmem
  obtain ⟨hflow, htgt⟩ := mem_inFlows.mp hin
  exact ⟨hflow, htgt, by simpa using hport⟩

theorem exists_flow_of_predecessor {u : ℕ} (h : dag.predecessor v = some u) :
    ∃ f ∈ dag.flows, f.target.op = v ∧ f.source.op = u := by
  obtain ⟨f, hf, hsrc⟩ := Option.map_eq_some_iff.mp h
  obtain ⟨hflow, htgt⟩ := mem_of_inFlow hf
  exact ⟨f, hflow, htgt, hsrc⟩

theorem exists_flow_of_predecessorOn {port u : ℕ} (h : dag.predecessorOn v port = some u) :
    ∃ f ∈ dag.flows, f.target.op = v ∧ f.source.op = u := by
  obtain ⟨f, hf, hsrc⟩ := Option.map_eq_some_iff.mp h
  obtain ⟨hflow, htgt, -⟩ := mem_of_inFlowOn hf
  exact ⟨f, hflow, htgt, hsrc⟩

/-! ### The order of the visits

`boost::topological_sort` lists every vertex once; `ApplyInReverseTopologicalOrder` reverses the list,
so that each operator comes after its predecessors. -/

/-- An order in which `ApplyInReverseTopologicalOrder` may visit the operators. -/
structure IsVisitOrder (dag : Dag Op) (order : List ℕ) : Prop where
  perm : order.Perm dag.operators
  predecessorsFirst : ∀ done v rest, order = done ++ v :: rest → ∀ f ∈ dag.flows, f.target.op = v → f.source.op ∈ done

/-- The order can be read off the positions. -/
theorem isVisitOrder_of_idxOf {order : List ℕ} (hperm : order.Perm dag.operators)
    (h : ∀ f ∈ dag.flows, order.idxOf f.source.op < order.idxOf f.target.op) : dag.IsVisitOrder order := by
  refine ⟨hperm, fun done v rest horder f hf htgt => ?_⟩
  have hlt := h f hf
  rw [htgt] at hlt
  by_contra hnot
  -- a source that is not among the first operators has a later index than `v`
  have hle : order.idxOf v ≤ done.length := by
    rw [horder, idxOf_append]
    split
    · next hmem => exact idxOf_le_length
    · simp
  rw [horder, idxOf_append_of_notMem hnot, ← horder] at hlt
  omega

end Dag

end Jitq

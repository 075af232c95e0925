import Jitq.Dag.Nested
import Jitq.Lib.Partial
import Mathlib.Data.List.Perm.Lattice

namespace Jitq

open SortedMap Function Option

/-! # Changing a DAG

The functions of the class `DAG` with which the optimizer takes plans apart and puts them together again.
They assert that operators are in the DAG and that an operator that is removed is not connected to anything;
a function whose assertion fails is `none`. -/

section

variable {Op : Type}

/-- The DAG with another operator at one place. -/
def setOp (dag : PortedDag Op) (v : ℕ) (x : Op) : PortedDag Op := { dag with op := update dag.op v x }

variable {dag : PortedDag Op}

@[simp] theorem op_setOp_self {v : ℕ} (x : Op) : (setOp dag v x).op v = x := by
  show update dag.op v x v = x
  rw [update_self]

theorem op_setOp_of_ne {u v : ℕ} (h : u ≠ v) (x : Op) : (setOp dag v x).op u = dag.op u := by
  show update dag.op v x u = dag.op u
  rw [update_of_ne h]

@[simp] theorem setOp_setOp {v : ℕ} (x y : Op) : setOp (setOp dag v x) v y = setOp dag v y := by
  unfold setOp
  rw [update_idem]

@[simp] theorem setOp_self {v : ℕ} : setOp dag v (dag.op v) = dag := by
  unfold setOp
  rw [update_eq_self]

end

namespace PortedDag

section

variable {Op : Type}

variable (dag : PortedDag Op)

/-- `RemoveFlow(f)`. -/
def removeFlow (f : Flow) : PortedDag Op := { dag with flows := dag.flows.erase f }

/-- No flow, input or output refers to the operator. -/
def Isolated (v : ℕ) : Prop :=
  (∀ f ∈ dag.flows, f.source.op ≠ v ∧ f.target.op ≠ v) ∧ (∀ e ∈ dag.inputs.entries, e.2.op ≠ v) ∧
    ∀ e ∈ dag.outputs.entries, e.2.op ≠ v

instance (dag : PortedDag Op) (v : ℕ) : Decidable (dag.Isolated v) := by
  unfold Isolated
  infer_instance

/-- `RemoveOperator(op)`. -/
def removeOperator (v : ℕ) : Option (PortedDag Op) :=
  if v ∈ dag.operators ∧ dag.Isolated v then some { dag with operators := dag.operators.erase v } else none

/-- `reset_input(dag_input_port)`. -/
def resetInput (dagInputPort : ℕ) : PortedDag Op :=
  { dag with inputs := dag.inputs.erase dagInputPort }

/-- `set_input(dag_input_port, input)`. -/
def setInput (dagInputPort : ℕ) (input : FlowTip) : Option (PortedDag Op) :=
  (dag.resetInput dagInputPort).addInput dagInputPort input

variable {dag dag' : PortedDag Op} {port : ℕ}

theorem removeOperator_eq_some {v : ℕ} : dag.removeOperator v = some dag' ↔
    (v ∈ dag.operators ∧ dag.Isolated v) ∧ dag' = { dag with operators := dag.operators.erase v } := by
  unfold removeOperator
  rw [ite_none_right_eq_some, some.injEq, eq_comm (a := dag')]

theorem addFlow_eq_some {source target : FlowTip} : dag.addFlow source target = some dag' ↔
      (source.op ∈ dag.operators ∧ target.op ∈ dag.operators ∧
        { dag with flows := dag.flows ++ [(⟨source, target⟩ : Flow)] }.hasCycle = false) ∧
      dag' = { dag with flows := dag.flows ++ [⟨source, target⟩] } := by
  unfold addFlow
  rw [ite_none_right_eq_some, some.injEq, eq_comm (a := dag')]

theorem flows_foldlM_addFlow {fs : List Flow}
    (h : fs.foldlM (fun dag f => dag.addFlow f.source f.target) dag = some dag') :
    dag' = { dag with flows := dag.flows ++ fs } := by
  induction fs generalizing dag with
  | nil =>
    cases h
    rw [List.append_nil]
  | cons f fs ih =>
    obtain ⟨dag1, hadd, hrest⟩ := Partial.foldlM_cons_eq_some.mp h
    obtain ⟨-, rfl⟩ := addFlow_eq_some.mp hadd
    rw [ih hrest, List.append_assoc]
    rfl

theorem setInput_eq_some {input : FlowTip} : dag.setInput port input = some dag' ↔
      input.op ∈ dag.operators ∧ dag' = { dag with inputs := (dag.inputs.erase port).emplace port input } := by
  unfold setInput addInput resetInput
  rw [ite_none_right_eq_some, some.injEq, eq_comm (a := dag')]

theorem setOutput_eq_some {output : FlowTip} : dag.setOutput port output = some dag' ↔
      output.op ∈ dag.operators ∧ dag' = { dag with outputs := dag.outputs.assign port output } := by
  unfold setOutput
  rw [ite_none_right_eq_some, some.injEq, eq_comm (a := dag')]

theorem input_eq_some {tip : FlowTip} : dag.input port = some tip ↔ dag.inputs.equalRange port = [tip] := by
  unfold input
  match dag.inputs.equalRange port with
  | [] => simp
  | [t] => simp
  | _ :: _ :: _ => simp

end

section

variable {Inner : Type}

/-- `last_operator_id()`, with the ids of the operators that are in the DAG. -/
def lastOperatorId (dag : OpDag Inner) : ℕ := dag.operators.foldr (fun v last => max (dag.idOf v) last) 0

/-- `AddOperator(op, properties)`, which gives the operator the next id. -/
def addOperator (dag : OpDag Inner) (v : ℕ) (x : Vertex Inner) : OpDag Inner :=
  { dag with
    operators := dag.operators ++ [v]
    op := update dag.op v ⟨{ x.operator with id := dag.lastOperatorId + 1 }, x.innerDag⟩ }

/-- `MoveOperator(other_dag, op)`; the two DAGs after the move. -/
def moveOperator (dag otherDag : OpDag Inner) (v : ℕ) :
    Option (OpDag Inner × OpDag Inner) := do
  let dag' ← dag.removeOperator v
  some (dag', otherDag.addOperator v (dag.op v))

/-- The same operator, with another id. -/
def SameButId (x y : Vertex Inner) : Prop := ∃ id, y = ⟨{ x.operator with id := id }, x.innerDag⟩

theorem SameButId.cls {x y : Vertex Inner} (h : SameButId x y) : y.operator.cls = x.operator.cls := by
  obtain ⟨id, rfl⟩ := h
  rfl

/-- The DAG with operators of another one behind its own. -/
structure Extends (dag : OpDag Inner) (vs : List ℕ) (op : ℕ → Vertex Inner)
    (dag' : OpDag Inner) : Prop where
  operators : dag'.operators = dag.operators ++ vs
  new : ∀ v ∈ vs, SameButId (op v) (dag'.op v)
  old : ∀ v ∉ vs, dag'.op v = dag.op v
  flows : dag'.flows = dag.flows
  inputs : dag'.inputs = dag.inputs
  outputs : dag'.outputs = dag.outputs

/-- All operators of a DAG without flows, inputs and outputs are moved to another DAG. -/
theorem foldlM_moveOperator (vs : List ℕ) (dag otherDag : OpDag Inner)
    (hops : dag.operators = vs) (hnd : vs.Nodup) (hflows : dag.flows = [])
    (hins : dag.inputs = ∅) (houts : dag.outputs = ∅) :
    ∃ dags, vs.foldlM (fun dags v => moveOperator dags.1 dags.2 v) (dag, otherDag) = some dags ∧
      otherDag.Extends vs dag.op dags.2 := by
  induction vs generalizing dag otherDag with
  | nil => exact ⟨_, rfl, ⟨by simp, by simp, by simp, rfl, rfl, rfl⟩⟩
  | cons v vs ih =>
    obtain ⟨hv, hnd⟩ := List.nodup_cons.mp hnd
    have hremove : dag.removeOperator v = some { dag with operators := vs } := by
      refine removeOperator_eq_some.mpr ⟨⟨by simp [hops], ?_⟩, ?_⟩
      · simp [Isolated, hflows, hins, houts]
      · rw [hops, List.erase_cons_head]
    have hmove : moveOperator dag otherDag v =
        some ({ dag with operators := vs }, otherDag.addOperator v (dag.op v)) := by
      rw [moveOperator, hremove]
      rfl
    obtain ⟨dags, hdags, hext⟩ := ih { dag with operators := vs }
      (otherDag.addOperator v (dag.op v)) rfl hnd hflows hins houts
    rw [List.foldlM_cons, hmove, bind_eq_bind, bind_some]
    refine ⟨dags, hdags, ⟨?_, fun u hu => ?_, fun u hu => ?_, hext.flows, hext.inputs, hext.outputs⟩⟩
    · rw [hext.operators]
      simp [addOperator]
    · rcases List.mem_cons.mp hu with rfl | hu
      · rw [hext.old u hv]
        refine ⟨otherDag.lastOperatorId + 1, ?_⟩
        show update otherDag.op u _ u = _
        rw [update_self]
      · exact hext.new u hu
    · rw [List.mem_cons, not_or] at hu
      rw [hext.old u hu.2]
      show update otherDag.op v _ u = _
      rw [update_of_ne hu.1]

end

end PortedDag

end Jitq

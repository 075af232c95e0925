import Jitq.Dag.Container
import Jitq.Optimize.Canonicalize
import Jitq.Optimize.MergeParallel

namespace Jitq.Optimize

open SortedMap Partial SortBy Graphs Container Option

/-! # Runs of the optimizer on DAG objects

The passes change plans by calls of the functions of `DAG`, on any number of DAGs that are nested in each other.
`DagOperation` are these calls, and `CanonicalizeRun` is the pass that renumbers the operators.

* `Renumbered.sound` — `Canonicalize` gives the ids from `0` on, which are not above the last id;
* `DagHeap.Inv.apply`, `CanonicalizeRun.inv` — what is kept by one call;
* `dagIds_unique` — in every run the ids of each DAG are distinct, if operators are replaced with care. -/

variable (topSort : TopologicalSort ℕ)

/-! ### `Canonicalize` on objects -/

/-- The DAG with its operators in the place of their addresses. -/
def view (objects : Objects) (dag : PortedDag (Option ℕ)) : OpDag ℕ :=
  { dag with op := fun v => ⟨objects v, dag.op v⟩ }

/-- `op->id = vertex_ids.at(op)` for some operators. -/
def assignIds (objects : Objects) (operators ids : List ℕ) : Objects := fun v =>
  if v ∈ operators then { objects v with id := ids.idxOf v } else objects v

/-- All operators are moved from one DAG to another one. -/
def moveOperators (objects : Objects) (c other : Container) (vs : List ℕ) :
    Option (Objects × Container × Container) :=
  vs.foldlM (fun s v => s.2.1.moveOperator s.1 s.2.2 v) (objects, c, other)

/-- The part of `Canonicalize::Run` behind the recursion.  Moving an operator resets its id, so the new ids are
    assigned twice. -/
def renumberObjects (objects : Objects) (c : Container) : Option (Objects × Container) := do
  let dag := view objects c.dag
  let order := topSort dag.operators dag.edges
  let outgoing ← outgoingPathLabel dag order
  let incoming ← incomingPathLabel dag order.reverse
  let ids ← vertexIds dag incoming outgoing
  guard (∀ v ∈ dag.operators, v ∈ ids)
  let objects := assignIds objects dag.operators ids
  let newId := fun v => (objects v).id
  let tempOps := sortBy newId dag.operators
  let tempFlows := sortBy (flowKey newId) dag.flows
  let unset := { c with dag := { c.dag with flows := [], inputs := ∅, outputs := ∅ } }
  let (objects, unset, temp) ← moveOperators objects unset empty tempOps
  let (objects, _, c') ← moveOperators objects temp unset tempOps
  let dag' ← tempFlows.foldlM (fun dag f => dag.addFlow f.source f.target) c'.dag
  let dag' ← c.dag.inputs.entries.foldlM (fun dag e => dag.addInput e.1 e.2) dag'
  let dag' ← c.dag.outputs.entries.foldlM (fun dag e => dag.setOutput e.1 e.2) dag'
  some (assignIds objects dag'.operators ids, { c' with dag := dag' })

/-- All DAGs, by address, and the operators in them. -/
structure DagHeap where
  objects : Objects
  dags : ℕ → Container

namespace DagHeap

def write (h : DagHeap) (objects : Objects) (d : ℕ) (c : Container) : DagHeap := ⟨objects, Function.update h.dags d c⟩

def setDag (h : DagHeap) (d : ℕ) (dag : PortedDag (Option ℕ)) : DagHeap :=
  h.write h.objects d { h.dags d with dag := dag }

end DagHeap

/-- Brings the inputs of the inner DAG of an operator and the in-flows of the operator in order. -/
def orderObjectInputs (h : DagHeap) (d v p : ℕ) : Option DagHeap := do
  let dag := (h.dags d).dag
  let inner := (h.dags p).dag
  let idOf := fun v => (h.objects v).id
  let tempInputs ← (List.range (h.objects v).cls.numInPorts).mapM fun i =>
    (dag.graph.inFlowOn v i).map fun f => InnerInput.mk f.source (inner.inputs.equalRange i)
  let sorted := tempInputs.map (InnerInput.sortConsumers idOf)
  -- the comparison of two inputs reads their first consumers
  guard (sorted.length ≤ 1 ∨ ∀ input ∈ sorted, input.consumers ≠ [])
  let sorted := (sortBy (InnerInput.key idOf) sorted).zipIdx
  let dag' ← sorted.foldlM (fun dag p => dag.addFlow p.1.source ⟨v, p.2⟩)
    { dag with flows := dag.flows.filter fun f => f.target.op ≠ v }
  let inputs := sorted.flatMap fun p => p.1.consumers.map fun tip => (p.2, tip)
  let inner' ← inputs.foldlM (fun inner e => inner.addInput e.1 e.2) { inner with inputs := ∅ }
  some ((h.setDag d dag').setDag p inner')

mutual

/-- `Canonicalize::Run`, where every call of it, also one for an inner DAG, meets a condition. -/
inductive CanonicalizeRun (Meets : DagHeap → ℕ → Prop) : DagHeap → ℕ → DagHeap → Prop
  | run {h h₁ : DagHeap} {d : ℕ} {objects : Objects} {c : Container} :
      OrderRun Meets d h (h.dags d).dag.operators h₁ → Meets h₁ d →
      renumberObjects topSort h₁.objects (h₁.dags d) = some (objects, c) →
      CanonicalizeRun Meets h d (h₁.write objects d c)

/-- The recursion, over the operators of a DAG. -/
inductive OrderRun (Meets : DagHeap → ℕ → Prop) : ℕ → DagHeap → List ℕ → DagHeap → Prop
  | nil {d : ℕ} {h : DagHeap} : OrderRun Meets d h [] h
  | plain {d v : ℕ} {vs : List ℕ} {h h' : DagHeap} : (h.dags d).dag.op v = none → OrderRun Meets d h vs h' →
      OrderRun Meets d h (v :: vs) h'
  | inner {d v p : ℕ} {vs : List ℕ} {h h₁ h₂ h' : DagHeap} : (h.dags d).dag.op v = some p →
      CanonicalizeRun Meets h p h₁ → orderObjectInputs h₁ d v p = some h₂ → OrderRun Meets d h₂ vs h' →
      OrderRun Meets d h (v :: vs) h'

end

/-! ### Calls -/

/-- A call of a function of `DAG`; `d` is the DAG. -/
inductive DagOperation
  | addOperator (d v : ℕ) (innerDag : Option ℕ)
  | addOperatorWithId (d v id : ℕ) (innerDag : Option ℕ)
  | replaceOperator (d old new : ℕ)
  | removeOperator (d v : ℕ)
  | moveOperator (d otherDag v : ℕ)
  | addFlow (d : ℕ) (source target : FlowTip)
  | removeFlow (d : ℕ) (f : Flow)
  | setInput (d : ℕ) (input : FlowTip)
  | setInputOn (d dagInputPort : ℕ) (input : FlowTip)
  | addInput (d dagInputPort : ℕ) (input : FlowTip)
  | resetInput (d dagInputPort : ℕ)
  | resetInputs (d : ℕ)
  | setOutput (d : ℕ) (output : FlowTip)
  | setOutputOn (d dagOutputPort : ℕ) (output : FlowTip)
  | resetOutputs (d : ℕ)

namespace DagHeap

/-- The heap after a call, or `none` if an assertion of the function fails. -/
def apply (h : DagHeap) : DagOperation → Option DagHeap
  | .addOperator d v innerDag => ((h.dags d).addOperator h.objects v innerDag).map fun r => h.write r.1 d r.2
  | .addOperatorWithId d v id innerDag =>
    ((h.dags d).addOperatorWithId h.objects v id innerDag).map fun r => h.write r.1 d r.2
  | .replaceOperator d old new => ((h.dags d).replaceOperator old new).map (h.write h.objects d)
  | .removeOperator d v => ((h.dags d).removeOperator v).map (h.write h.objects d)
  | .moveOperator d otherDag v => do
    let c ← (h.dags d).removeOperator v
    let h' := h.write h.objects d c
    ((h'.dags otherDag).addOperator h.objects v ((h.dags d).dag.op v)).map fun r => h'.write r.1 otherDag r.2
  | .addFlow d source target => ((h.dags d).dag.addFlow source target).map (h.setDag d)
  | .removeFlow d f => some (h.setDag d ((h.dags d).dag.removeFlow f))
  | .setInput d input => ({ (h.dags d).dag with inputs := ∅ }.addInput 0 input).map (h.setDag d)
  | .setInputOn d port input => ((h.dags d).dag.setInput port input).map (h.setDag d)
  | .addInput d port input => ((h.dags d).dag.addInput port input).map (h.setDag d)
  | .resetInput d port => some (h.setDag d ((h.dags d).dag.resetInput port))
  | .resetInputs d => some (h.setDag d { (h.dags d).dag with inputs := ∅ })
  | .setOutput d output =>
    if (h.dags d).dag.outputs.entries.length ≤ 1 then
      ({ (h.dags d).dag with outputs := ∅ }.setOutput 0 output).map (h.setDag d)
    else none
  | .setOutputOn d port output => ((h.dags d).dag.setOutput port output).map (h.setDag d)
  | .resetOutputs d => some (h.setDag d { (h.dags d).dag with outputs := ∅ })

/-- An operator that is added is owned by no DAG yet. -/
def Admissible (h : DagHeap) : DagOperation → Prop
  | .addOperator _ v _ => ∀ d, v ∉ (h.dags d).dag.operators
  | .addOperatorWithId _ v id _ => id < 2 ^ 64 ∧ ∀ d, v ∉ (h.dags d).dag.operators
  | .replaceOperator _ _ new => ∀ d, new ∉ (h.dags d).dag.operators
  | _ => True

/-- The condition under which a call keeps ids unique: an operator that replaces another one brings an id that no other
    operator has and that is not above the last one, and replaces an operator that is no input or output of the DAG;
    an id that is given explicitly is that of no operator; ids do not come to the end of `size_t`. -/
def KeepsIds (h : DagHeap) : DagOperation → Prop
  | .addOperator d _ _ => (h.dags d).lastOperatorId + 2 < 2 ^ 64
  | .addOperatorWithId d _ id _ => id + 1 < 2 ^ 64 ∧ id ∉ (h.dags d).ids h.objects
  | .replaceOperator d old new => (∀ u ∈ (h.dags d).dag.operators, u ≠ old → (h.objects u).id ≠ (h.objects new).id) ∧
      (h.objects new).id ≤ (h.dags d).lastOperatorId ∧ Untipped (h.dags d).dag old
  | .moveOperator _ otherDag _ => (h.dags otherDag).lastOperatorId + 2 < 2 ^ 64
  | _ => True

/-- The condition on a call of `Canonicalize::Run`. -/
def KeepsIdsRun (h : DagHeap) (d : ℕ) : Prop :=
  (h.dags d).lastOperatorId + (h.dags d).dag.operators.length + 1 < 2 ^ 64

end DagHeap

/-! ### Renumbering keeps ids unique -/

section Renumber

variable {topSort} {objects objects' : Objects} {c c' other other' : Container}

variable {operators ids : List ℕ} {v : ℕ} {dag dag' : PortedDag (Option ℕ)}

theorem assignIds_of_mem (hv : v ∈ operators) : (assignIds objects operators ids v).id = ids.idxOf v := by
  rw [assignIds, if_pos hv]

theorem assignIds_of_notMem (hv : v ∉ operators) : assignIds objects operators ids v = objects v := by
  rw [assignIds, if_neg hv]

/-- One operator is moved. -/
theorem moveOperator_eq_some (h : c.moveOperator objects other v = some (objects', c', other')) :
    objects' = setId objects v other.nextId ∧
      c' = { c with dag := { c.dag with operators := c.dag.operators.erase v } } ∧
      other'.dag.operators = other.dag.operators ++ [v] ∧ other'.dag.inputs = other.dag.inputs ∧
      other'.dag.outputs = other.dag.outputs ∧ other'.lastOperatorId = max other.nextId other.lastOperatorId := by
  obtain ⟨c1, hremove, hrest⟩ := bind_eq_some_iff.mp h
  obtain ⟨⟨objects1, other1⟩, hadd, heq⟩ := bind_eq_some_iff.mp hrest
  obtain ⟨rfl, rfl, rfl⟩ : objects1 = objects' ∧ c1 = c' ∧ other1 = other' := by
    simpa only [some.injEq, Prod.mk.injEq] using heq
  obtain ⟨-, rfl⟩ := removeOperator_eq_some.mp hremove
  have hlast := lastOperatorId_addOperatorWithId hadd
  obtain ⟨-, rfl, rfl⟩ := addOperatorWithId_eq_some.mp hadd
  exact ⟨rfl, rfl, rfl, rfl, rfl, hlast⟩

/-- What moving operators changes: their own ids, and at most as many ids are given out. -/
structure OperatorsMoved (vs : List ℕ) (objects : Objects) (c other : Container) (objects' : Objects) (c' other' : Container) :
    Prop where
  others : ∀ v ∉ vs, objects' v = objects v
  left : c' = { c with dag := { c.dag with operators := c.dag.operators.diff vs } }
  operators : other'.dag.operators = other.dag.operators ++ vs
  inputs : other'.dag.inputs = other.dag.inputs
  outputs : other'.dag.outputs = other.dag.outputs
  lower : other.lastOperatorId ≤ other'.lastOperatorId
  upper : other'.lastOperatorId ≤ other.lastOperatorId + vs.length

theorem moveOperators_eq_some {vs : List ℕ} (h : moveOperators objects c other vs = some (objects', c', other')) :
    OperatorsMoved vs objects c other objects' c' other' := by
  induction vs generalizing objects c other with
  | nil =>
    obtain ⟨rfl, rfl, rfl⟩ : objects = objects' ∧ c = c' ∧ other = other' := by
      simpa only [moveOperators, List.foldlM_nil, pure_def, some.injEq, Prod.mk.injEq] using h
    exact ⟨fun _ _ => rfl, rfl, (List.append_nil _).symm, rfl, rfl, le_refl _, Nat.le_add_right _ _⟩
  | cons v vs ih =>
    obtain ⟨⟨objects1, c1, other1⟩, hmove, hrest⟩ := foldlM_cons_eq_some.mp h
    obtain ⟨rfl, rfl, hops, hins, houts, hlast⟩ := moveOperator_eq_some hmove
    have hmoved := ih hrest
    have hnext : other.nextId ≤ other.lastOperatorId + 1 := Nat.mod_le _ _
    have hlower := hmoved.lower
    have hupper := hmoved.upper
    refine ⟨fun u hu => ?_, ?_, ?_, hmoved.inputs.trans hins, hmoved.outputs.trans houts, ?_, ?_⟩
    · rw [List.mem_cons, not_or] at hu
      rw [hmoved.others u hu.2, setId_of_ne objects hu.1]
    · rw [hmoved.left, List.diff_cons]
    · rw [hmoved.operators, hops, List.append_assoc, List.singleton_append]
    · rw [hlast] at hlower
      exact (le_max_right _ _).trans hlower
    · have hlast : other1.lastOperatorId = max other.nextId other.lastOperatorId := hlast
      rw [List.length_cons]
      omega

/-- There are at most as many operators as ids up to the last one. -/
theorem length_operators_le (h : c.Sound objects) : c.dag.operators.length ≤ c.lastOperatorId + 1 := by
  have hsub : c.ids objects ⊆ List.range (c.lastOperatorId + 1) := by
    intro id hid
    rw [List.mem_range]
    exact Nat.lt_succ_of_le (h.below id hid)
  have hlen := (h.distinct.subperm hsub).length_le
  rwa [ids, List.length_map, List.length_range] at hlen

theorem length_vertexIds_le {Inner : Type} {dag : OpDag Inner} {incoming outgoing : List (ℕ × String)}
    (h : vertexIds dag incoming outgoing = some ids) : ids.length ≤ dag.operators.length := by
  obtain ⟨-, -, h⟩ := bind_eq_some_iff.mp h
  obtain ⟨-, -, h⟩ := bind_eq_some_iff.mp h
  cases h
  have hle := (Map.entries_foldl_emplace_subperm (∅ : Map String ℕ)
    (dag.operators.map fun v => (combinedLabel incoming outgoing v, v))).length_le
  rw [Map.entries_empty, List.nil_append, List.length_map] at hle
  rwa [List.length_map]

/-- Flows, inputs and outputs are added to the operators that are there. -/
structure Rebuilt (operators : List ℕ) (dag : PortedDag (Option ℕ)) : Prop where
  operators : dag.operators = operators
  tips : TipsInside dag

theorem Rebuilt.addFlow {source target : FlowTip} (h : Rebuilt operators dag)
    (hadd : dag.addFlow source target = some dag') : Rebuilt operators dag' := by
  obtain ⟨-, rfl⟩ := PortedDag.addFlow_eq_some.mp hadd
  exact ⟨h.operators, h.tips.mono (fun _ he => he) (fun _ he => he) fun _ hv => hv⟩

theorem Rebuilt.addInput {port : ℕ} {tip : FlowTip} (hadd : dag.addInput port tip = some dag')
    (h : Rebuilt operators dag) : Rebuilt operators dag' := by
  unfold PortedDag.addInput at hadd
  rw [ite_none_right_eq_some] at hadd
  obtain ⟨hin, heq⟩ := hadd
  cases heq
  refine ⟨h.operators, fun e he => ?_, h.tips.output⟩
  rcases MultiMap.mem_emplace.mp he with rfl | hold
  · exact hin
  · exact h.tips.input e hold

theorem Rebuilt.setOutput {port : ℕ} {tip : FlowTip} (hset : dag.setOutput port tip = some dag')
    (h : Rebuilt operators dag) : Rebuilt operators dag' := by
  obtain ⟨hin, rfl⟩ := PortedDag.setOutput_eq_some.mp hset
  refine ⟨h.operators, h.tips.input, fun e he => ?_⟩
  rcases Map.mem_assign.mp he with rfl | ⟨hold, -⟩
  · exact hin
  · exact h.tips.output e hold

/-- What renumbering does to the ids: every operator gets its place in a list, and others keep theirs. -/
structure Renumbered (ids : List ℕ) (objects : Objects) (c : Container) (objects' : Objects) (c' : Container) :
    Prop where
  covers : ∀ v ∈ c.dag.operators, v ∈ ids
  short : ids.length ≤ c.dag.operators.length
  places : ∀ v ∈ c.dag.operators, (objects' v).id = ids.idxOf v
  others : ∀ v ∉ c.dag.operators, objects' v = objects v
  operators : c'.dag.operators.Perm c.dag.operators
  tips : TipsInside c'.dag
  lower : c.lastOperatorId ≤ c'.lastOperatorId
  upper : c'.lastOperatorId ≤ c.lastOperatorId + c.dag.operators.length

theorem renumberObjects_renumbered (hnd : c.dag.operators.Nodup)
    (h : renumberObjects topSort objects c = some (objects', c')) :
    ∃ ids, Renumbered ids objects c objects' c' := by
  obtain ⟨outgoing, -, h⟩ := bind_eq_some_iff.mp h
  obtain ⟨incoming, -, h⟩ := bind_eq_some_iff.mp h
  obtain ⟨ids, hids, h⟩ := bind_eq_some_iff.mp h
  obtain ⟨_, hall, h⟩ := bind_eq_some_iff.mp h
  obtain ⟨⟨objects1, unset, temp⟩, hmove1, h⟩ := bind_eq_some_iff.mp h
  obtain ⟨⟨objects2, rest, c2⟩, hmove2, h⟩ := bind_eq_some_iff.mp h
  obtain ⟨dag1, hflows, h⟩ := bind_eq_some_iff.mp h
  obtain ⟨dag2, hins, h⟩ := bind_eq_some_iff.mp h
  obtain ⟨dag3, houts, h⟩ := bind_eq_some_iff.mp h
  obtain ⟨rfl, rfl⟩ : assignIds objects2 dag3.operators ids = objects' ∧ { c2 with dag := dag3 } = c' := by
    simpa only [some.injEq, Prod.mk.injEq] using h
  have hmoved1 := moveOperators_eq_some hmove1
  have hmoved2 := moveOperators_eq_some hmove2
  set vs := sortBy (fun v => (assignIds objects (view objects c.dag).operators ids v).id)
    (view objects c.dag).operators
  have hperm : vs.Perm c.dag.operators := sortBy_perm _ _
  -- all operators leave, so the DAG is empty when they come back
  have hunset : unset.dag.operators = [] := by
    rw [hmoved1.left, List.eq_nil_iff_forall_not_mem]
    intro v hv
    rw [hnd.mem_sdiff_iff] at hv
    exact hv.2 (hperm.mem_iff.mpr hv.1)
  have hstart : Rebuilt vs c2.dag := by
    have hin : c2.dag.inputs = ∅ := by
      rw [hmoved2.inputs, hmoved1.left]
    have hout : c2.dag.outputs = ∅ := by
      rw [hmoved2.outputs, hmoved1.left]
    refine ⟨?_, fun e he => ?_, fun e he => ?_⟩
    · rw [hmoved2.operators, hunset, List.nil_append]
    · rw [hin] at he
      cases he
    · rw [hout] at he
      cases he
  have hdag1 : Rebuilt vs dag1 := foldlM_invariant (fun _ _ _ _ h hadd => h.addFlow hadd) hstart hflows
  have hdag2 : Rebuilt vs dag2 := foldlM_invariant (fun _ _ _ _ h hadd => h.addInput hadd) hdag1 hins
  have hdag3 : Rebuilt vs dag3 := foldlM_invariant (fun _ _ _ _ h hset => h.setOutput hset) hdag2 houts
  have hmem : ∀ v, v ∈ dag3.operators ↔ v ∈ c.dag.operators := fun v => hdag3.operators ▸ hperm.mem_iff
  refine ⟨ids, guard_eq_some.mp hall, length_vertexIds_le hids, fun v hv => ?_, fun v hv => ?_, ?_, hdag3.tips, ?_, ?_⟩
  · exact assignIds_of_mem ((hmem v).mpr hv)
  · have hnot : v ∉ vs := fun h => hv (hperm.mem_iff.mp h)
    rw [assignIds_of_notMem fun h => hv ((hmem v).mp h), hmoved2.others v hnot, hmoved1.others v hnot]
    exact assignIds_of_notMem hv
  · exact hdag3.operators ▸ hperm
  · have hlower := hmoved2.lower
    rw [hmoved1.left] at hlower
    exact hlower
  · have hupper := hmoved2.upper
    rw [hmoved1.left, hperm.length_eq] at hupper
    exact hupper

/-- **`Canonicalize` keeps ids unique.**  It numbers the operators from `0` on, and there are no more of them than ids up
    to the last one. -/
theorem Renumbered.sound (h : Renumbered ids objects c objects' c') (hsound : c.Sound objects)
    (hroom : c.lastOperatorId + c.dag.operators.length + 1 < 2 ^ 64) : c'.Sound objects' := by
  have hlower := h.lower
  have hupper := h.upper
  refine ⟨?_, fun id hid => ?_, by omega, h.tips⟩
  · have hnd : c'.dag.operators.Nodup := h.operators.nodup_iff.mpr hsound.nodup
    refine List.Nodup.map_on (fun u hu v hv heq => ?_) hnd
    have hu := h.operators.mem_iff.mp hu
    have hv := h.operators.mem_iff.mp hv
    rw [h.places u hu, h.places v hv] at heq
    exact (List.idxOf_inj (h.covers u hu)).mp heq
  · obtain ⟨v, hv, rfl⟩ := List.mem_map.mp hid
    have hv := h.operators.mem_iff.mp hv
    have hlt := List.idxOf_lt_length_of_mem (h.covers v hv)
    have hshort := h.short
    have hcount := length_operators_le hsound
    show (objects' v).id ≤ c'.lastOperatorId
    rw [h.places v hv]
    omega

end Renumber

/-! ### The invariant of all DAGs -/

namespace DagHeap

/-- Every DAG is sound, and an operator is in at most one of them. -/
structure Inv (h : DagHeap) : Prop where
  sound : ∀ d, (h.dags d).Sound h.objects
  separate : ∀ {d e v}, v ∈ (h.dags d).dag.operators → v ∈ (h.dags e).dag.operators → d = e

theorem inv_empty (objects : Objects) : Inv ⟨objects, fun _ => empty⟩ := ⟨fun _ => sound_empty, nofun⟩

variable {h h' : DagHeap} {d : ℕ} {objects : Objects} {c : Container}

@[simp] theorem dags_write_self : (h.write objects d c).dags d = c := by
  exact Function.update_self ..

theorem dags_write_of_ne {e : ℕ} (hne : e ≠ d) : (h.write objects d c).dags e = h.dags e := by
  exact Function.update_of_ne hne ..

section

variable (hinv : h.Inv)

include hinv

/-- A change of one DAG: its operators come from there or from no other DAG, and no other operator gets another id. -/
theorem Inv.write (hsound : c.Sound objects)
    (hmem : ∀ v ∈ c.dag.operators, v ∈ (h.dags d).dag.operators ∨ ∀ e, v ∉ (h.dags e).dag.operators)
    (hothers : ∀ v, v ∉ c.dag.operators → v ∉ (h.dags d).dag.operators → (objects v).id = (h.objects v).id) :
    (h.write objects d c).Inv := by
  -- an operator of another DAG does not come in
  have hout : ∀ {e v}, e ≠ d → v ∈ (h.dags e).dag.operators → v ∉ c.dag.operators := by
    intro e v hne hv hin
    rcases hmem v hin with hd | hnone
    · exact hne (hinv.separate hv hd)
    · exact hnone e hv
  constructor
  · intro e
    by_cases he : e = d
    · subst he
      rw [dags_write_self]
      exact hsound
    · rw [dags_write_of_ne he]
      refine (hinv.sound e).congr fun v hv => hothers v (hout he hv) fun hd => he (hinv.separate hv hd)
  · intro e e' v hv hv'
    by_contra hne
    -- one of the two has not changed
    wlog he : e ≠ d generalizing e e'
    · exact this hv' hv (Ne.symm hne) fun he' => hne ((not_not.mp he).trans he'.symm)
    rw [dags_write_of_ne he] at hv
    by_cases he' : e' = d
    · subst he'
      rw [dags_write_self] at hv'
      exact hout he hv hv'
    · rw [dags_write_of_ne he'] at hv'
      exact hne (hinv.separate hv hv')

/-- A change of flows, inputs and outputs only. -/
theorem Inv.setDag {dag : PortedDag (Option ℕ)} (hdag : Rebuilt (h.dags d).dag.operators dag) :
    (h.setDag d dag).Inv := by
  refine hinv.write ((hinv.sound d).of_operators hdag.operators hdag.tips) (fun v hv => ?_) fun _ _ _ => rfl
  exact .inl (hdag.operators ▸ hv)

/-- Inputs and outputs may be taken away. -/
theorem Inv.rebuilt (d : ℕ) {dag : PortedDag (Option ℕ)} (hops : dag.operators = (h.dags d).dag.operators)
    (hinp : ∀ e ∈ dag.inputs.entries, e ∈ (h.dags d).dag.inputs.entries)
    (hout : ∀ e ∈ dag.outputs.entries, e ∈ (h.dags d).dag.outputs.entries) :
    Rebuilt (h.dags d).dag.operators dag :=
  ⟨hops, (hinv.sound d).tips.mono hinp hout fun _ hv => hops ▸ hv⟩

/-- An operator of no DAG is added to one, under an id of its own. -/
theorem Inv.addOperatorWithId {v id : ℕ} {innerDag : Option ℕ}
    (hv : ∀ e, v ∉ (h.dags e).dag.operators) (hid : id + 1 < 2 ^ 64) (hnew : id ∉ (h.dags d).ids h.objects)
    (hadd : (h.dags d).addOperatorWithId h.objects v id innerDag = some (objects, c)) :
    (h.write objects d c).Inv := by
  have hsound := ((hinv.sound d).addOperatorWithId_iff (hv d) hid hadd).mpr hnew
  obtain ⟨-, rfl, rfl⟩ := addOperatorWithId_eq_some.mp hadd
  refine hinv.write hsound (fun u hu => ?_) fun u hu _ => ?_
  · rcases List.mem_append.mp hu with hold | hnew
    · exact .inl hold
    · rw [List.mem_singleton.mp hnew]
      exact .inr hv
  · have hne : u ≠ v := fun heq => hu (List.mem_append_right _ (heq ▸ List.mem_cons_self))
    rw [setId_of_ne h.objects hne]

theorem Inv.addOperator {v : ℕ} {innerDag : Option ℕ} (hv : ∀ e, v ∉ (h.dags e).dag.operators)
    (hroom : (h.dags d).lastOperatorId + 2 < 2 ^ 64)
    (hadd : (h.dags d).addOperator h.objects v innerDag = some (objects, c)) : (h.write objects d c).Inv := by
  refine hinv.addOperatorWithId hv ?_ (hinv.sound d).consistent.fresh hadd
  rw [(hinv.sound d).nextId_eq]
  exact hroom

theorem Inv.removeOperator {v : ℕ} (hremove : (h.dags d).removeOperator v = some c) :
    (h.write h.objects d c).Inv := by
  have hsound := (hinv.sound d).removeOperator hremove
  obtain ⟨-, rfl⟩ := removeOperator_eq_some.mp hremove
  exact hinv.write hsound (fun u hu => .inl (List.mem_of_mem_erase hu)) fun _ _ _ => rfl

/-- After it was removed, an operator is in no DAG. -/
theorem Inv.notMem_of_removeOperator {v : ℕ} (hremove : (h.dags d).removeOperator v = some c) (e : ℕ) :
    v ∉ ((h.write h.objects d c).dags e).dag.operators := by
  obtain ⟨⟨hin, -⟩, rfl⟩ := removeOperator_eq_some.mp hremove
  by_cases he : e = d
  · subst he
    rw [dags_write_self]
    exact (hinv.sound e).nodup.not_mem_erase
  · rw [dags_write_of_ne he]
    exact fun hv => he (hinv.separate hv hin)

theorem Inv.replaceOperator {old new : ℕ} (hnew : ∀ e, new ∉ (h.dags e).dag.operators)
    (hkeeps : h.KeepsIds (.replaceOperator d old new))
    (hreplace : (h.dags d).replaceOperator old new = some c) : (h.write h.objects d c).Inv := by
  have hsound := ((hinv.sound d).replaceOperator_iff (hnew d) hreplace).mpr hkeeps
  refine hinv.write hsound (fun v hv => ?_) fun _ _ _ => rfl
  unfold Container.replaceOperator at hreplace
  rw [ite_none_right_eq_some] at hreplace
  obtain rfl := some.inj hreplace.2
  obtain ⟨u, hu, rfl⟩ := List.mem_map.mp hv
  by_cases hold : u = old
  · rw [hold, swap_old]
    exact .inr hnew
  · rw [swap_of_ne hold]
    exact .inl hu

/-- **One call keeps the invariant** if it meets the condition. -/
theorem Inv.apply {o : DagOperation} (hadmissible : h.Admissible o) (hkeeps : h.KeepsIds o)
    (happly : h.apply o = some h') : h'.Inv := by
  cases o with
  | addOperator d v innerDag =>
    obtain ⟨⟨objects, c⟩, hadd, rfl⟩ := map_eq_some_iff.mp happly
    exact hinv.addOperator hadmissible hkeeps hadd
  | addOperatorWithId d v id innerDag =>
    obtain ⟨⟨objects, c⟩, hadd, rfl⟩ := map_eq_some_iff.mp happly
    exact hinv.addOperatorWithId hadmissible.2 hkeeps.1 hkeeps.2 hadd
  | replaceOperator d old new =>
    obtain ⟨c, hreplace, rfl⟩ := map_eq_some_iff.mp happly
    exact hinv.replaceOperator hadmissible hkeeps hreplace
  | removeOperator d v =>
    obtain ⟨c, hremove, rfl⟩ := map_eq_some_iff.mp happly
    exact hinv.removeOperator hremove
  | moveOperator d otherDag v =>
    obtain ⟨c, hremove, hrest⟩ := bind_eq_some_iff.mp happly
    obtain ⟨⟨objects, other⟩, hadd, rfl⟩ := map_eq_some_iff.mp hrest
    have hinv1 := hinv.removeOperator hremove
    refine hinv1.addOperator (hinv.notMem_of_removeOperator hremove) ?_ hadd
    -- a move to the same DAG leaves its set of ids as it is
    obtain ⟨-, rfl⟩ := removeOperator_eq_some.mp hremove
    by_cases hsame : otherDag = d
    · subst hsame
      rw [dags_write_self]
      exact hkeeps
    · rw [dags_write_of_ne hsame]
      exact hkeeps
  | addFlow d source target =>
    obtain ⟨dag, hadd, rfl⟩ := map_eq_some_iff.mp happly
    exact hinv.setDag ((hinv.rebuilt d rfl (fun _ he => he) fun _ he => he).addFlow hadd)
  | removeFlow d f =>
    cases happly
    exact hinv.setDag (hinv.rebuilt d rfl (fun _ he => he) fun _ he => he)
  | setInput d input =>
    obtain ⟨dag, hadd, rfl⟩ := map_eq_some_iff.mp happly
    exact hinv.setDag (.addInput hadd (hinv.rebuilt d rfl nofun fun _ he => he))
  | setInputOn d port input =>
    obtain ⟨dag, hadd, rfl⟩ := map_eq_some_iff.mp happly
    exact hinv.setDag (.addInput hadd (hinv.rebuilt d rfl (fun _ he => (MultiMap.mem_erase.mp he).1) fun _ he => he))
  | addInput d port input =>
    obtain ⟨dag, hadd, rfl⟩ := map_eq_some_iff.mp happly
    exact hinv.setDag ((hinv.rebuilt d rfl (fun _ he => he) fun _ he => he).addInput hadd)
  | resetInput d port =>
    cases happly
    exact hinv.setDag (hinv.rebuilt d rfl (fun _ he => (MultiMap.mem_erase.mp he).1) fun _ he => he)
  | resetInputs d =>
    cases happly
    exact hinv.setDag (hinv.rebuilt d rfl nofun fun _ he => he)
  | setOutput d output =>
    obtain ⟨-, hwhole⟩ := ite_none_right_eq_some.mp happly
    obtain ⟨dag, hset, rfl⟩ := map_eq_some_iff.mp hwhole
    exact hinv.setDag (.setOutput hset (hinv.rebuilt d rfl (fun _ he => he) nofun))
  | setOutputOn d port output =>
    obtain ⟨dag, hset, rfl⟩ := map_eq_some_iff.mp happly
    exact hinv.setDag ((hinv.rebuilt d rfl (fun _ he => he) fun _ he => he).setOutput hset)
  | resetOutputs d =>
    cases happly
    exact hinv.setDag (hinv.rebuilt d rfl (fun _ he => he) nofun)

end

theorem operators_setDag {dag : PortedDag (Option ℕ)} (hdag : dag.operators = (h.dags d).dag.operators) (e : ℕ) :
    ((h.setDag d dag).dags e).dag.operators = (h.dags e).dag.operators := by
  unfold DagHeap.setDag
  by_cases he : e = d
  · subst he
    rw [dags_write_self]
    exact hdag
  · rw [dags_write_of_ne he]

theorem Inv.orderObjectInputs (hinv : h.Inv) {v p : ℕ} (horder : orderObjectInputs h d v p = some h') : h'.Inv := by
  unfold Optimize.orderObjectInputs at horder
  obtain ⟨tempInputs, -, horder⟩ := bind_eq_some_iff.mp horder
  obtain ⟨_, -, horder⟩ := bind_eq_some_iff.mp horder
  obtain ⟨dag', hflows, horder⟩ := bind_eq_some_iff.mp horder
  obtain ⟨inner', hins, horder⟩ := bind_eq_some_iff.mp horder
  cases horder
  have hunset : Rebuilt (h.dags d).dag.operators
      { (h.dags d).dag with flows := (h.dags d).dag.flows.filter fun f => f.target.op ≠ v } :=
    hinv.rebuilt d rfl (fun _ he => he) fun _ he => he
  have hreset : Rebuilt (h.dags p).dag.operators { (h.dags p).dag with inputs := ∅ } :=
    hinv.rebuilt p rfl nofun fun _ he => he
  have hdag' : Rebuilt (h.dags d).dag.operators dag' :=
    foldlM_invariant (fun _ _ _ _ h hadd => h.addFlow hadd) hunset hflows
  have hinner' : Rebuilt (h.dags p).dag.operators inner' :=
    foldlM_invariant (fun _ _ _ _ h hadd => h.addInput hadd) hreset hins
  refine (hinv.setDag hdag').setDag ?_
  rw [operators_setDag hdag'.operators]
  exact hinner'

theorem Inv.renumber (hinv : h.Inv) (hroom : h.KeepsIdsRun d)
    (hrenum : renumberObjects topSort h.objects (h.dags d) = some (objects, c)) :
    (h.write objects d c).Inv := by
  obtain ⟨ids, hids⟩ := renumberObjects_renumbered (hinv.sound d).nodup hrenum
  refine hinv.write (hids.sound (hinv.sound d) hroom) (fun v hv => ?_) fun v _ hv => ?_
  · exact .inl (hids.operators.mem_iff.mp hv)
  · rw [hids.others v hv]

end DagHeap

/-! ### Runs -/

mutual

/-- **A run of `Canonicalize` keeps the invariant**, by recursion over the calls for inner DAGs. -/
theorem CanonicalizeRun.inv {h h' : DagHeap} {d : ℕ}
    (hrun : CanonicalizeRun topSort DagHeap.KeepsIdsRun h d h') (hinv : h.Inv) : h'.Inv :=
  match hrun with
  | .run horder hroom hrenum => (OrderRun.inv horder hinv).renumber topSort hroom hrenum

theorem OrderRun.inv {h h' : DagHeap} {d : ℕ} {vs : List ℕ}
    (hrun : OrderRun topSort DagHeap.KeepsIdsRun d h vs h') (hinv : h.Inv) : h'.Inv :=
  match hrun with
  | .nil => hinv
  | .plain _ hrest => OrderRun.inv hrest hinv
  | .inner _ hinner horder hrest =>
    OrderRun.inv hrest ((CanonicalizeRun.inv hinner hinv).orderObjectInputs horder)

end

/-- The states of all DAGs that calls lead to, from empty DAGs on, if each meets the condition. -/
inductive Reaches (objects : Objects) : DagHeap → Prop
  | start : Reaches objects ⟨objects, fun _ => empty⟩
  | call {h h' : DagHeap} {o : DagOperation} : Reaches objects h → h.Admissible o → h.KeepsIds o →
      h.apply o = some h' → Reaches objects h'
  | canonicalize {h h' : DagHeap} {d : ℕ} : Reaches objects h →
      CanonicalizeRun topSort DagHeap.KeepsIdsRun h d h' → Reaches objects h'

theorem Reaches.inv {objects : Objects} {h : DagHeap} (hreaches : Reaches topSort objects h) : h.Inv := by
  induction hreaches with
  | start => exact DagHeap.inv_empty objects
  | call _ hadmissible hkeeps happly hinv => exact hinv.apply hadmissible hkeeps happly
  | canonicalize _ hrun hinv => exact hrun.inv topSort hinv

/-- **In every run the ids of each DAG are distinct**, the next id is a new one, and inputs and outputs refer to operators of
    the DAG, if every call meets the condition.  A call of `ReplaceOperator` or of `AddOperator` with an id that does not
    meet it breaks the invariant at once. -/
theorem dagIds_unique (objects : Objects) :
    (∀ h, Reaches topSort objects h → ∀ d, (h.dags d).Consistent h.objects) ∧
    (∀ h, Reaches topSort objects h → ∀ d old new h', h.Admissible (.replaceOperator d old new) →
      h.apply (.replaceOperator d old new) = some h' →
      ((∀ e, (h'.dags e).Sound h'.objects) ↔ h.KeepsIds (.replaceOperator d old new))) ∧
    ∀ h, Reaches topSort objects h → ∀ d v id innerDag h',
      h.Admissible (.addOperatorWithId d v id innerDag) → id + 1 < 2 ^ 64 →
      h.apply (.addOperatorWithId d v id innerDag) = some h' →
      ((∀ e, (h'.dags e).Sound h'.objects) ↔ h.KeepsIds (.addOperatorWithId d v id innerDag)) := by
  refine ⟨fun h hreaches d => ?_, fun h hreaches d old new h' hnew happly => ?_,
    fun h hreaches d v id innerDag h' hnew hid happly => ?_⟩
  · exact (hreaches.inv.sound d).consistent
  · have hinv := hreaches.inv
    obtain ⟨c, hreplace, rfl⟩ := Option.map_eq_some_iff.mp happly
    refine ⟨fun hsound => ?_, fun hkeeps => (hinv.replaceOperator hnew hkeeps hreplace).sound⟩
    have hd := hsound d
    rw [DagHeap.dags_write_self] at hd
    exact ((hinv.sound d).replaceOperator_iff (hnew d) hreplace).mp hd
  · have hinv := hreaches.inv
    obtain ⟨⟨objects', c⟩, hadd, rfl⟩ := Option.map_eq_some_iff.mp happly
    constructor
    · intro hsound
      have hd := hsound d
      rw [DagHeap.dags_write_self] at hd
      exact ⟨hid, ((hinv.sound d).addOperatorWithId_iff (hnew.2 d) hid hadd).mp hd⟩
    · intro hkeeps
      exact (hinv.addOperatorWithId hnew.2 hid hkeeps.2 hadd).sound

/-! ### `ParallelizeProcess` -/

/-- `new DAGConcurrentExecuteProcess()`: nothing sets the id. -/
def newConcurrentExecuteProcess : DagOperator := ⟨0, none, "", .concurrentExecuteProcess⟩

/-- `ParallelizeProcess::Run`, up to the texts of constants; `address` is where the new operators are. -/
def parallelizeProcess (address : ℕ → ℕ) (d : ℕ) (h : DagHeap) : Option DagHeap :=
  let dag := (h.dags d).dag
  let parallelMapOps := (topSort dag.operators dag.edges).filter fun v => isConcurrentExecute (h.objects v).cls
  parallelMapOps.foldlM (fun h v =>
    DagHeap.apply ⟨Function.update h.objects (address v) newConcurrentExecuteProcess, h.dags⟩
      (.replaceOperator d v (address v))) h

/-- Two groups of workers, one behind the other. -/
def twoGroups : Option DagHeap :=
  [.addOperator 0 10 (some 1), .addOperator 0 11 (some 2), .addFlow 0 ⟨10, 0⟩ ⟨11, 0⟩, .setInput 0 ⟨10, 0⟩,
    .setOutput 0 ⟨11, 0⟩].foldlM DagHeap.apply
      ⟨fun _ => ⟨0, none, "", .concurrentExecute 1 1⟩, fun _ => empty⟩

/-- After `ParallelizeProcess` both operators have the id `0`, and the output of the plan is an operator that is not there
    any more. -/
theorem parallelizeProcess_repeats_ids :
    twoGroups.map (fun h => (h.dags 0).ids h.objects) = some [1, 2] ∧
    (twoGroups.bind (parallelizeProcess (fun vs _ => vs) (· + 10) 0)).map (fun h =>
      ((h.dags 0).ids h.objects, (h.dags 0).dag.operators, (h.dags 0).dag.outputs.entries.map fun e => e.2.op)) =
      some ([0, 0], [20, 21], [11]) := by
  decide

end Jitq.Optimize

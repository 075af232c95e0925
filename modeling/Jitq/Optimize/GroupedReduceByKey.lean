import Jitq.Dag.Container
import Jitq.Dag.Executions
import Jitq.Operators.GroupedReduce
import Jitq.Optimize.DetermineSortedness

namespace Jitq.Optimize

open Graphs SortedMap HashTable Runs Operators Container List Function Option

/-! # GroupedReduceByKey — reductions that rely on grouped input

The pass replaces each `ReduceByKey` whose input is marked as grouped by a `ReduceByKeyGrouped`.

* `groupReduce` — the replacement of one operator, with the assertions of `DAG`;
* `exists_groupReduce` — what it does to the plan: the operator gets another address and another meaning;
* `sameResults_regroup` — grouped reductions in the place of others keep the results;
* `groupedReduceByKey_preserves_iff` — the pass keeps the results exactly if each of these operators has one consumer and is
  not an output of the plan. -/

variable {R K V : Type}

/-- The operators that the pass tells apart.  A reduction has the function of its `llvm_ir`. -/
inductive OperatorKind (R V : Type)
  | reduceByKey (func : V → V → V)
  | reduceByKeyGrouped (func : V → V → V)
  | other (emits : (ℕ → List R) → (ℕ → List R) → Prop)

/-- An operator with the fields of its `tuple`. -/
structure PlanOperator (R V : Type) where
  fields : List Field
  kind : OperatorKind R V

/-! ### The pass -/

variable (dag : PortedDag (PlanOperator R V))

/-- `CollectReduceByKeyVisitor` at one operator. -/
def isMarked (v : ℕ) : Option Bool :=
  match (dag.op v).kind with
  | .reduceByKey _ => do
    let pred ← dag.graph.predecessor v
    let key ← (dag.op pred).fields[0]?
    some (key.has .grouped)
  | _ => some false

/-- `visitor.reduce_by_keys_`. -/
def reduceByKeys : Option (List ℕ) :=
  if ∀ v ∈ dag.operators, (isMarked dag v).isSome then
    some (dag.operators.filter fun v => isMarked dag v = some true)
  else none

variable (x : PlanOperator R V)

/-- The new operator: a `DAGReduceByKeyGrouped` with the `tuple` and the `llvm_ir` of the old one. -/
def PlanOperator.grouped : PlanOperator R V where
  fields := x.fields
  kind := match x.kind with
    | .reduceByKey func => .reduceByKeyGrouped func
    | kind => kind

/-- `dag->AddOperator(new_op)`. -/
def addGrouped (v new : ℕ) : PortedDag (PlanOperator R V) :=
  { dag with operators := dag.operators ++ [new], op := update dag.op new (dag.op v).grouped }

/-- The replacement of one operator; `new` is the address of the new one. -/
def groupReduce (v new : ℕ) : Option (PortedDag (PlanOperator R V)) := do
  let dag := addGrouped dag v new
  let outFlow ← dag.graph.outFlow v
  let inFlow ← dag.graph.inFlow v
  let dag := (dag.removeFlow outFlow).removeFlow inFlow
  let dag ← dag.addFlow ⟨new, 0⟩ outFlow.target
  let dag ← dag.addFlow inFlow.source ⟨new, 0⟩
  dag.removeOperator v

/-- `GroupedReduceByKey::Run`; `address` is where the new operators are. -/
def groupedReduceByKey (address : ℕ → ℕ) (dag : PortedDag (PlanOperator R V)) :
    Option (PortedDag (PlanOperator R V)) := do
  let vs ← reduceByKeys dag
  vs.foldlM (fun dag v => groupReduce dag v (address v)) dag

/-! ### Meaning -/

section Meaning

variable [BEq K] (splitTuple : R → K × V) (tupleCat : K × V → R)

/-- What an operator may emit.  A hash table is iterated in any order. -/
def PlanOperator.Emits (x : PlanOperator R V) (ins outs : ℕ → List R) : Prop :=
  match x.kind with
  | .reduceByKey func =>
    ∃ table : List (K × V), table.Perm (reduceTable func [] ((ins 0).map splitTuple)) ∧ outs 0 = table.map tupleCat
  | .reduceByKeyGrouped func =>
    outs 0 = (reduceByKeyGroupedRows (fun t => (splitTuple t).1) (fun t => (splitTuple t).2) func (ins 0)).map tupleCat
  | .other emits => emits ins outs

variable (dag : PortedDag (PlanOperator R V))

/-- The marks are correct: whatever an operator and those before it emit, if its first field is marked as grouped, equal
    keys are adjacent in what its consumers read. -/
def MarksCorrect : Prop :=
  ∀ f ∈ dag.flows, (∃ key, (dag.op f.source.op).fields[0]? = some key ∧ key.has .grouped = true) → ∀ data rows,
    (∀ u ∈ dag.operators, u = f.source.op ∨ Reaches dag.edges u f.source.op →
      dag.Obeys (PlanOperator.Emits splitTuple tupleCat) data rows u) →
    Grouped ((rows f.source).map fun t => (splitTuple t).1)

/-- The operators do not depend on the order of their inputs: if these come in another order, they can emit the same in
    another order. -/
def Reorderable : Prop :=
  ∀ v ∈ dag.operators, ∀ ins outs ins' : ℕ → List R, (dag.op v).Emits splitTuple tupleCat ins outs →
    (∀ port, (ins port).Perm (ins' port)) →
    ∃ outs', (∀ port, (outs port).Perm (outs' port)) ∧ (dag.op v).Emits splitTuple tupleCat ins' outs'

/-- The operators emit something for all inputs. -/
def Responsive : Prop :=
  ∀ v ∈ dag.operators, ∀ ins, ∃ outs, (dag.op v).Emits splitTuple tupleCat ins outs

/-- The second plan is as good as the first one. -/
structure SameResults (dag dag' : PortedDag (PlanOperator R V)) : Prop where
  /-- It returns nothing that the first one could not return. -/
  refines : ∀ data streams, dag'.Returns (PlanOperator.Emits splitTuple tupleCat) data streams →
    dag.Returns (PlanOperator.Emits splitTuple tupleCat) data streams
  /-- It returns something. -/
  responds : Responsive splitTuple tupleCat dag → ∀ data, ∃ streams,
    dag'.Returns (PlanOperator.Emits splitTuple tupleCat) data streams
  /-- Up to the order, it returns all that the first one returns, unless an operator looks at the order. -/
  keeps : Reorderable splitTuple tupleCat dag → ∀ data streams,
    dag.Returns (PlanOperator.Emits splitTuple tupleCat) data streams → ∃ streams',
      dag'.Returns (PlanOperator.Emits splitTuple tupleCat) data streams' ∧
      List.Forall₂ (fun out out' => out.1 = out'.1 ∧ out.2.Perm out'.2) streams streams'

end Meaning

/-! ### Plans -/

def PlanOperator.IsReduceByKey : Prop := ∃ func, x.kind = .reduceByKey func

/-- A plan that has passed `verify` and `type_check`: a reduction has one input and one output port, and its input has a
    key. -/
structure PlanChecked (dag : PortedDag (PlanOperator R V)) : Prop where
  closed : dag.Closed
  acyclic : dag.Acyclic
  ports : dag.PortsSingle
  sourcePort : ∀ f ∈ dag.flows, (dag.op f.source.op).IsReduceByKey → f.source.port = 0
  targetPort : ∀ f ∈ dag.flows, (dag.op f.target.op).IsReduceByKey → f.target.port = 0
  key : ∀ f ∈ dag.flows, (dag.op f.target.op).IsReduceByKey → (dag.op f.source.op).fields ≠ []

/-- What the replacement of an operator asks of it. -/
structure CanReplace (dag : PortedDag (PlanOperator R V)) (v : ℕ) : Prop where
  inDegree : dag.graph.inDegree v = 1
  outDegree : dag.graph.outDegree v = 1
  untipped : Untipped dag v

/-- The condition of the pass: a `ReduceByKey` has one producer; one with a marked input has one consumer and is no input or
    output of the plan. -/
structure Groupable (dag : PortedDag (PlanOperator R V)) : Prop where
  producer : ∀ v ∈ dag.operators, (dag.op v).IsReduceByKey → dag.graph.inDegree v = 1
  consumer : ∀ v ∈ dag.operators, isMarked dag v = some true → CanReplace dag v

/-- The plan in which some reductions rely on grouped input. -/
def regroup (vs : List ℕ) (dag : PortedDag (PlanOperator R V)) : PortedDag (PlanOperator R V) :=
  { dag with op := fun u => if u ∈ vs then (dag.op u).grouped else dag.op u }

variable {dag dag' : PortedDag (PlanOperator R V)} {v new : ℕ} {ρ : ℕ → ℕ}

theorem PlanOperator.not_isReduceByKey_grouped : ¬ x.grouped.IsReduceByKey := by
  rintro ⟨func, hfunc⟩
  unfold grouped at hfunc
  cases hkind : x.kind <;> simp [hkind] at hfunc

variable {u : ℕ}

theorem isReduceByKey_of_regroup {vs : List ℕ} (h : ((regroup vs dag).op u).IsReduceByKey) :
    (dag.op u).IsReduceByKey := by
  unfold regroup at h
  dsimp only at h
  split at h
  · exact absurd h (PlanOperator.not_isReduceByKey_grouped _)
  · exact h

theorem op_regroup_of_mem {vs : List ℕ} (h : u ∈ vs) : (regroup vs dag).op u = (dag.op u).grouped := if_pos h

theorem op_regroup_of_notMem {vs : List ℕ} (h : u ∉ vs) : (regroup vs dag).op u = dag.op u := if_neg h

theorem fields_regroup (vs : List ℕ) (dag : PortedDag (PlanOperator R V)) (u : ℕ) :
    ((regroup vs dag).op u).fields = (dag.op u).fields := by
  unfold regroup
  dsimp only
  split <;> rfl

theorem PlanChecked.regroup (h : PlanChecked dag) (vs : List ℕ) : PlanChecked (regroup vs dag) where
  closed := ⟨h.closed.nodup, h.closed.source, h.closed.target, h.closed.input, h.closed.output⟩
  acyclic := h.acyclic
  ports := ⟨h.ports.flow, h.ports.input, h.ports.inputs⟩
  sourcePort f hf hred := h.sourcePort f hf (isReduceByKey_of_regroup hred)
  targetPort f hf hred := h.targetPort f hf (isReduceByKey_of_regroup hred)
  key f hf hred := by
    rw [fields_regroup]
    exact h.key f hf (isReduceByKey_of_regroup hred)

theorem PlanChecked.renamed (h : PlanChecked dag) (hren : PortedDag.Relocated ρ dag dag') : PlanChecked dag' where
  closed := hren.closed h.closed
  acyclic := hren.acyclic h.closed h.acyclic
  ports := hren.portsSingle h.closed h.ports
  sourcePort g hg hred := by
    obtain ⟨f, hf, rfl⟩ := hren.mem_flows.mp hg
    have hop : dag'.op (f.rename ρ).source.op = dag.op f.source.op := hren.op _ (h.closed.source f hf)
    exact h.sourcePort f hf (hop ▸ hred)
  targetPort g hg hred := by
    obtain ⟨f, hf, rfl⟩ := hren.mem_flows.mp hg
    have hop : dag'.op (f.rename ρ).target.op = dag.op f.target.op := hren.op _ (h.closed.target f hf)
    exact h.targetPort f hf (hop ▸ hred)
  key g hg hred := by
    obtain ⟨f, hf, rfl⟩ := hren.mem_flows.mp hg
    have hop : dag'.op (f.rename ρ).target.op = dag.op f.target.op := hren.op _ (h.closed.target f hf)
    have hop' : dag'.op (f.rename ρ).source.op = dag.op f.source.op := hren.op _ (h.closed.source f hf)
    rw [hop']
    exact h.key f hf (hop ▸ hred)

theorem untipped_renamed (hren : PortedDag.Relocated ρ dag dag') (hclosed : dag.Closed) (hv : v ∈ dag.operators) :
    Untipped dag' (ρ v) ↔ Untipped dag v := by
  unfold Untipped
  rw [hren.inputs, hren.outputs]
  simp only [List.mem_map, forall_exists_index, and_imp, forall_apply_eq_imp_iff₂]
  constructor
  · rintro ⟨hins, houts⟩
    exact ⟨fun e he heq => hins e he (congrArg ρ heq), fun e he heq => houts e he (congrArg ρ heq)⟩
  · rintro ⟨hins, houts⟩
    exact ⟨fun e he heq => hins e he (hren.injOn (hclosed.input e he) hv heq),
      fun e he heq => houts e he (hren.injOn (hclosed.output e he) hv heq)⟩

theorem canReplace_renamed (hren : PortedDag.Relocated ρ dag dag') (hclosed : dag.Closed) (hv : v ∈ dag.operators) :
    CanReplace dag' (ρ v) ↔ CanReplace dag v := by
  constructor
  · rintro ⟨hin, hout, htips⟩
    exact ⟨hren.inDegree hclosed hv ▸ hin, hren.outDegree hclosed hv ▸ hout,
      (untipped_renamed hren hclosed hv).mp htips⟩
  · rintro ⟨hin, hout, htips⟩
    exact ⟨(hren.inDegree hclosed hv).trans hin, (hren.outDegree hclosed hv).trans hout,
      (untipped_renamed hren hclosed hv).mpr htips⟩

/-! ### One replacement -/

theorem swap_mem (hu : u ∈ dag.operators) : swap v new u ∈ dag.operators ++ [new] := by
  unfold Container.swap
  split
  · exact mem_append_right _ mem_cons_self
  · exact mem_append_left _ hu

theorem rename_of_ne {f : Flow} (hsrc : f.source.op ≠ v) (htgt : f.target.op ≠ v) :
    f.rename (swap v new) = f := by
  unfold Flow.rename FlowTip.rename
  rw [swap_of_ne hsrc, swap_of_ne htgt]

theorem swap_injOn (hnew : new ∉ dag.operators) : Set.InjOn (swap v new) { u | u ∈ dag.operators } :=
  fun u hu w hw => injOn_swap (f := id) (fun _ _ _ _ heq => heq) (fun x hx _ (heq : x = new) => hnew (heq ▸ hx)) u hu w hw

/-- The flows that a new operator gets. -/
def newFlows (new : ℕ) (outFlow inFlow : Flow) : List Flow := [⟨⟨new, 0⟩, outFlow.target⟩, ⟨inFlow.source, ⟨new, 0⟩⟩]

theorem groupReduce_eq {outFlow inFlow : Flow} (hout : dag.graph.outFlows v = [outFlow])
    (hin : dag.graph.inFlows v = [inFlow]) :
    groupReduce dag v new = ((newFlows new outFlow inFlow).foldlM
      (fun (dag : PortedDag (PlanOperator R V)) f => dag.addFlow f.source f.target)
      (((addGrouped dag v new).removeFlow outFlow).removeFlow inFlow)).bind fun dag => dag.removeOperator v := by
  have hout : (addGrouped dag v new).graph.outFlow v = some outFlow := Dag.single_eq_some.mpr hout
  have hin : (addGrouped dag v new).graph.inFlow v = some inFlow := Dag.single_eq_some.mpr hin
  unfold groupReduce newFlows
  simp only [hout, hin, bind_eq_bind, bind_some, foldlM_cons, foldlM_nil, bind_assoc, Option.pure_def]

/-- No flow of an operator is left once its only one is gone. -/
theorem notMem_erase_of_filter {p : Flow → Bool} {f : Flow} {fs : List Flow} (h : fs.filter p = [f]) :
    ∀ g ∈ fs.erase f, p g = false := by
  have hmem : f ∈ fs.filter p := h ▸ mem_singleton_self f
  obtain ⟨hf, hp⟩ := mem_filter.mp hmem
  have hperm := (perm_cons_erase hf).filter p
  rw [h, filter_cons_of_pos hp] at hperm
  have hnil := length_eq_zero_iff.mp (Nat.succ.inj hperm.length_eq).symm
  intro g hg
  rw [filter_eq_nil_iff] at hnil
  exact Bool.eq_false_iff.mpr (hnil g hg)

/-- The flows without the two of the operator, and these two with its new name. -/
theorem rename_flows_perm (new : ℕ) (h : PlanChecked dag) (hred : (dag.op v).IsReduceByKey)
    {outFlow inFlow : Flow}
    (hout : dag.graph.outFlows v = [outFlow]) (hin : dag.graph.inFlows v = [inFlow]) :
    ((dag.flows.erase outFlow).erase inFlow ++ newFlows new outFlow inFlow).Perm
      (dag.flows.map (Flow.rename (swap v new))) := by
  obtain ⟨houtMem, hsrc⟩ := Dag.mem_outFlows.mp (hout ▸ mem_singleton_self outFlow)
  obtain ⟨hinMem, htgt⟩ := Dag.mem_inFlows.mp (hin ▸ mem_singleton_self inFlow)
  have hne : inFlow ≠ outFlow := by
    rintro rfl
    exact h.acyclic.source_ne_target houtMem (hsrc.trans htgt.symm)
  have hsplit : dag.flows.Perm (outFlow :: inFlow :: (dag.flows.erase outFlow).erase inFlow) :=
    (perm_cons_erase houtMem).trans
      ((perm_cons_erase ((mem_erase_of_ne hne).mpr hinMem)).cons _)
  have hrestMap : ((dag.flows.erase outFlow).erase inFlow).map (Flow.rename (swap v new)) =
      (dag.flows.erase outFlow).erase inFlow := by
    refine (map_congr_left fun f hf => ?_).trans (map_id _)
    have hsources := notMem_erase_of_filter hout f (mem_of_mem_erase hf)
    have htargets := notMem_erase_of_filter hin f ((erase_sublist.erase _).subset hf)
    exact rename_of_ne (of_decide_eq_false hsources) (of_decide_eq_false htargets)
  have houtMap : outFlow.rename (swap v new) = ⟨⟨new, 0⟩, outFlow.target⟩ := by
    have hport := h.sourcePort outFlow houtMem (hsrc.symm ▸ hred)
    have htgt : outFlow.target.op ≠ v := fun heq => h.acyclic.source_ne_target houtMem (hsrc.trans heq.symm)
    unfold Flow.rename FlowTip.rename
    rw [hsrc, swap_old, swap_of_ne htgt, hport]
  have hinMap : inFlow.rename (swap v new) = ⟨inFlow.source, ⟨new, 0⟩⟩ := by
    have hport := h.targetPort inFlow hinMem (htgt.symm ▸ hred)
    have hsrc : inFlow.source.op ≠ v := fun heq => h.acyclic.source_ne_target hinMem (heq.trans htgt.symm)
    unfold Flow.rename FlowTip.rename
    rw [htgt, swap_old, swap_of_ne hsrc, hport]
  have hmapped := hsplit.map (Flow.rename (swap v new))
  rw [map_cons, map_cons, hrestMap, houtMap, hinMap] at hmapped
  exact perm_append_comm.trans hmapped.symm

/-- The new operator comes in the place of the old one. -/
theorem erase_append_perm (hnd : dag.operators.Nodup) (hv : v ∈ dag.operators) :
    ((dag.operators ++ [new]).erase v).Perm (dag.operators.map (swap v new)) := by
  have hmap : (dag.operators.erase v).map (swap v new) = dag.operators.erase v :=
    (map_congr_left fun u hu => swap_of_ne (hnd.mem_erase_iff.mp hu).1).trans (map_id _)
  have hperm := (perm_cons_erase hv).map (swap v new)
  rw [map_cons, swap_old, hmap] at hperm
  rw [erase_append_left _ hv]
  exact perm_append_comm.trans hperm.symm

/-- The replacement asserts all that it needs. -/
theorem canReplace_of_groupReduce (hgrp : groupReduce dag v new = some dag') : CanReplace dag v := by
  have hsome := hgrp
  obtain ⟨outFlow, hout, hsome⟩ := bind_eq_some_iff.mp hsome
  obtain ⟨inFlow, hin, -⟩ := bind_eq_some_iff.mp hsome
  have hout : dag.graph.outFlows v = [outFlow] := Dag.single_eq_some.mp hout
  have hin : dag.graph.inFlows v = [inFlow] := Dag.single_eq_some.mp hin
  rw [groupReduce_eq hout hin] at hgrp
  obtain ⟨dag1, hadd, hremove⟩ := bind_eq_some_iff.mp hgrp
  obtain rfl := PortedDag.flows_foldlM_addFlow hadd
  obtain ⟨⟨-, -, htips⟩, -⟩ := PortedDag.removeOperator_eq_some.mp hremove
  refine ⟨?_, ?_, htips⟩
  · rw [Dag.inDegree, hin]
    rfl
  · rw [Dag.outDegree, hout]
    rfl

/-- **A reduction with one consumer that is no output can be replaced.**  The plan is then the one with a grouped
    reduction in the place of the old operator, at another address. -/
theorem exists_groupReduce (h : PlanChecked dag) (hv : v ∈ dag.operators) (hred : (dag.op v).IsReduceByKey)
    (hnew : new ∉ dag.operators) (hcan : CanReplace dag v) :
    ∃ dag', groupReduce dag v new = some dag' ∧ PortedDag.Relocated (swap v new) (regroup [v] dag) dag' := by
  obtain ⟨outFlow, hout⟩ := length_eq_one_iff.mp hcan.outDegree
  obtain ⟨inFlow, hin⟩ := length_eq_one_iff.mp hcan.inDegree
  have hperm := rename_flows_perm new h hred hout hin
  have hends : ∀ f ∈ (dag.flows.erase outFlow).erase inFlow ++ newFlows new outFlow inFlow,
      ∃ g ∈ dag.flows, g.rename (swap v new) = f := fun f hf => mem_map.mp (hperm.mem_iff.mp hf)
  have hne : new ≠ v := fun heq => hnew (heq ▸ hv)
  have htips : ∀ es : List (ℕ × FlowTip), (∀ e ∈ es, e.2.op ≠ v) →
      es = es.map fun e => (e.1, e.2.rename (swap v new)) := by
    intro es hes
    refine ((map_congr_left fun e he => ?_).trans (map_id es)).symm
    unfold FlowTip.rename
    rw [swap_of_ne (hes e he)]
    rfl
  rw [groupReduce_eq hout hin, PortedDag.foldlM_addFlow, bind_some]
  · -- the old operator is isolated now
    refine ⟨_, PortedDag.removeOperator_eq_some.mpr ⟨⟨mem_append_left _ hv, fun f hf => ?_, hcan.untipped⟩, rfl⟩,
      swap_injOn hnew, erase_append_perm h.closed.nodup hv, fun u hu => ?_, hperm, htips _ hcan.untipped.1,
      htips _ hcan.untipped.2⟩
    · obtain ⟨g, -, rfl⟩ := hends f hf
      exact ⟨swap_ne hne _, swap_ne hne _⟩
    · show update dag.op new (dag.op v).grouped (swap v new u) = if u ∈ [v] then (dag.op u).grouped else dag.op u
      by_cases huv : u = v
      · rw [huv, swap_old, update_self, if_pos mem_cons_self]
      · have hne : u ≠ new := fun heq => hnew (heq ▸ hu)
        rw [swap_of_ne huv, update_of_ne hne, if_neg fun hmem => huv (mem_singleton.mp hmem)]
  · have hmap := Graphs.Acyclic.map h.acyclic (swap_injOn (v := v) hnew) fun e he => by
      obtain ⟨f, hf, rfl⟩ := mem_map.mp he
      exact ⟨h.closed.source f hf, h.closed.target f hf⟩
    refine hmap.mono fun e he => ?_
    obtain ⟨g, hg, rfl⟩ := mem_map.mp he
    obtain ⟨f, hf, rfl⟩ := hends g hg
    exact mem_map.mpr ⟨_, mem_map_of_mem hf, rfl⟩
  · intro f hf
    obtain ⟨g, hg, rfl⟩ := hends f (mem_append_right _ hf)
    exact ⟨swap_mem (h.closed.source g hg), swap_mem (h.closed.target g hg)⟩

/-! ### All replacements -/

/-- What the loop needs of the operators that are left. -/
structure Pending (address : ℕ → ℕ) (dag : PortedDag (PlanOperator R V)) (vs : List ℕ) : Prop where
  nodup : vs.Nodup
  mem : ∀ v ∈ vs, v ∈ dag.operators
  reduce : ∀ v ∈ vs, (dag.op v).IsReduceByKey
  fresh : ∀ v ∈ vs, address v ∉ dag.operators
  distinct : (vs.map address).Nodup

variable {address : ℕ → ℕ} {vs : List ℕ}

theorem Pending.ne_of_mem (h : Pending address dag (v :: vs)) (hu : u ∈ vs) : u ≠ v := by
  rintro rfl
  exact (nodup_cons.mp h.nodup).1 hu

/-- The other operators are as they were. -/
theorem op_eq_of_ne (h : PortedDag.Relocated (swap v new) (regroup [v] dag) dag') (hu : u ∈ dag.operators)
    (hne : u ≠ v) : dag'.op u = dag.op u := by
  have hop := h.op u hu
  rw [swap_of_ne hne] at hop
  rw [hop]
  exact if_neg fun hmem => hne (mem_singleton.mp hmem)

section Step

variable (hpend : Pending address dag (v :: vs))
  (hren : PortedDag.Relocated (swap v (address v)) (regroup [v] dag) dag')

include hpend hren

theorem Pending.tail : Pending address dag' vs where
  nodup := (nodup_cons.mp hpend.nodup).2
  mem u hu := by
    have hmem := hren.rename_mem_operators (hpend.mem u (mem_cons_of_mem _ hu))
    rwa [swap_of_ne (hpend.ne_of_mem hu)] at hmem
  reduce u hu := by
    rw [op_eq_of_ne hren (hpend.mem u (mem_cons_of_mem _ hu)) (hpend.ne_of_mem hu)]
    exact hpend.reduce u (mem_cons_of_mem _ hu)
  fresh u hu hmem := by
    obtain ⟨w, hw, heq⟩ := hren.mem_operators.mp hmem
    by_cases hwv : w = v
    · -- the address of another new operator
      rw [hwv, swap_old] at heq
      have hdist := hpend.distinct
      rw [map_cons, nodup_cons] at hdist
      exact hdist.1 (heq ▸ mem_map_of_mem hu)
    · rw [swap_of_ne hwv] at heq
      exact hpend.fresh u (mem_cons_of_mem _ hu) (heq ▸ hw)
  distinct := (nodup_cons.mp hpend.distinct).2

theorem Pending.canReplace_iff (h : PlanChecked dag) (hu : u ∈ vs) : CanReplace dag' u ↔ CanReplace dag u := by
  have hiff := canReplace_renamed hren (h.regroup [v]).closed (hpend.mem u (mem_cons_of_mem _ hu))
  rw [swap_of_ne (hpend.ne_of_mem hu)] at hiff
  exact hiff.trans ⟨fun hcan => ⟨hcan.1, hcan.2, hcan.3⟩, fun hcan => ⟨hcan.1, hcan.2, hcan.3⟩⟩

/-- The replacements that are left are made in the renamed plan. -/
theorem Pending.regroup_renamed : PortedDag.Relocated (swap v (address v)) (regroup (v :: vs) dag) (regroup vs dag') where
  injOn := hren.injOn
  operators := hren.operators
  flows := hren.flows
  inputs := hren.inputs
  outputs := hren.outputs
  op u hu := by
    have hop : dag'.op (swap v (address v) u) = if u ∈ [v] then (dag.op u).grouped else dag.op u := hren.op u hu
    show (if _ ∈ vs then _ else _) = if u ∈ v :: vs then (dag.op u).grouped else dag.op u
    rw [hop]
    by_cases huv : u = v
    · have hnew : address v ∉ vs := fun hmem =>
        hpend.fresh v mem_cons_self (hpend.mem _ (mem_cons_of_mem _ hmem))
      rw [huv, swap_old, if_neg hnew, if_pos mem_cons_self, if_pos mem_cons_self]
    · rw [swap_of_ne huv, if_neg fun hmem => huv (mem_singleton.mp hmem)]
      by_cases hmem : u ∈ vs
      · rw [if_pos hmem, if_pos (mem_cons_of_mem _ hmem)]
      · rw [if_neg hmem, if_neg fun h => (mem_cons.mp h).elim huv hmem]

end Step

/-- **The loop succeeds exactly if every operator can be replaced**, and leads to the plan with grouped reductions in their
    places.  The induction is on the operators that are left. -/
theorem foldlM_groupReduce (h : PlanChecked dag) (hpend : Pending address dag vs) :
    ((∃ dag', vs.foldlM (fun dag v => groupReduce dag v (address v)) dag = some dag') ↔ ∀ v ∈ vs, CanReplace dag v) ∧
    ∀ dag', vs.foldlM (fun dag v => groupReduce dag v (address v)) dag = some dag' →
      ∃ ρ, PortedDag.Relocated ρ (regroup vs dag) dag' := by
  induction vs generalizing dag with
  | nil =>
    refine ⟨⟨fun _ => nofun, fun _ => ⟨dag, rfl⟩⟩, fun dag' hrun => ⟨id, ?_⟩⟩
    cases hrun
    exact .refl dag
  | cons v vs ih =>
    rw [forall_mem_cons]
    by_cases hcan : CanReplace dag v
    · obtain ⟨dag1, hgrp, hren⟩ := exists_groupReduce h (hpend.mem v mem_cons_self) (hpend.reduce v mem_cons_self)
        (hpend.fresh v mem_cons_self) hcan
      obtain ⟨hiff, hrest⟩ := ih ((h.regroup [v]).renamed hren) (hpend.tail hren)
      rw [foldlM_cons, hgrp]
      refine ⟨hiff.trans ?_, fun dag' hrun => ?_⟩
      · rw [and_iff_right hcan]
        exact forall₂_congr fun u hu => hpend.canReplace_iff hren h hu
      · obtain ⟨ρ, hren'⟩ := hrest dag' hrun
        exact ⟨_, (hpend.regroup_renamed hren).trans hren'⟩
    · have hfails : ∀ dag', (v :: vs).foldlM (fun dag v => groupReduce dag v (address v)) dag ≠ some dag' := by
        intro dag' hrun
        obtain ⟨dag1, hgrp, -⟩ := Partial.foldlM_cons_eq_some.mp hrun
        exact hcan (canReplace_of_groupReduce hgrp)
      exact ⟨⟨fun hex => absurd hex.choose_spec (hfails _), fun hall => absurd hall.1 hcan⟩,
        fun dag' hrun => absurd hrun (hfails dag')⟩

/-! ### Grouped reductions in the place of others -/

section Results

variable [BEq K] [PartialEquivBEq K] {splitTuple : R → K × V} {tupleCat : K × V → R} {data : ℕ → List R}
  {rows : FlowTip → List R} {func : V → V → V} {x : PlanOperator R V} {ins outs : ℕ → List R}

theorem groupedRows_eq_reduceTable {xs : List R} (hgrpd : Grouped (xs.map fun t => (splitTuple t).1)) :
    reduceByKeyGroupedRows (fun t => (splitTuple t).1) (fun t => (splitTuple t).2) func xs =
      reduceTable func [] (xs.map splitTuple) :=
  reduceByKeyGroupedRows_eq (fun t => (splitTuple t).1) (fun t => (splitTuple t).2) func hgrpd

/-- On grouped input, a grouped reduction emits what the other one may emit. -/
theorem emits_of_grouped (hkind : x.kind = .reduceByKey func) (hgrpd : Grouped ((ins 0).map fun t => (splitTuple t).1))
    (h : x.grouped.Emits splitTuple tupleCat ins outs) : x.Emits splitTuple tupleCat ins outs := by
  unfold PlanOperator.Emits PlanOperator.grouped at h
  unfold PlanOperator.Emits
  simp only [hkind] at h ⊢
  rw [groupedRows_eq_reduceTable hgrpd] at h
  exact ⟨_, List.Perm.refl _, h⟩

/-- What a grouped reduction emits at its port, in the place of something else. -/
def groupedOuts (splitTuple : R → K × V) (tupleCat : K × V → R) (func : V → V → V) (ins outs : ℕ → List R) : ℕ → List R :=
  update outs 0
    ((reduceByKeyGroupedRows (fun t => (splitTuple t).1) (fun t => (splitTuple t).2) func (ins 0)).map tupleCat)

omit [PartialEquivBEq K] in
theorem emits_groupedOuts (hkind : x.kind = .reduceByKey func) :
    x.grouped.Emits splitTuple tupleCat ins (groupedOuts splitTuple tupleCat func ins outs) := by
  unfold PlanOperator.Emits PlanOperator.grouped
  simp only [hkind]
  exact update_self ..

theorem perm_groupedOuts (hkind : x.kind = .reduceByKey func) (hgrpd : Grouped ((ins 0).map fun t => (splitTuple t).1))
    (h : x.Emits splitTuple tupleCat ins outs) (port : ℕ) :
    (outs port).Perm (groupedOuts splitTuple tupleCat func ins outs port) := by
  unfold PlanOperator.Emits at h
  simp only [hkind] at h
  obtain ⟨table, htable, houts⟩ := h
  by_cases hport : port = 0
  · rw [hport, groupedOuts, update_self, houts, groupedRows_eq_reduceTable hgrpd]
    exact htable.map tupleCat
  · rw [groupedOuts, update_of_ne hport]

/-- The input of a reduction is grouped, whatever the operators before it emit. -/
def InputGrouped (splitTuple : R → K × V) (tupleCat : K × V → R) (dag : PortedDag (PlanOperator R V)) (v : ℕ) : Prop :=
  ∃ f ∈ dag.flows, f.target = ⟨v, 0⟩ ∧ ∀ data rows, (∀ u ∈ dag.operators, Reaches dag.edges u v →
    dag.Obeys (PlanOperator.Emits splitTuple tupleCat) data rows u) → Grouped ((rows f.source).map fun t => (splitTuple t).1)

omit [PartialEquivBEq K] in
theorem InputGrouped.of_feeds (h : InputGrouped splitTuple tupleCat dag v) (hfeeds : dag.Feeds data rows v ins)
    (hbefore : ∀ u ∈ dag.operators, Reaches dag.edges u v →
      dag.Obeys (PlanOperator.Emits splitTuple tupleCat) data rows u) :
    Grouped ((ins 0).map fun t => (splitTuple t).1) := by
  obtain ⟨f, hf, htgt, hgrpd⟩ := h
  have hin := hfeeds.flow f hf (congrArg FlowTip.op htgt)
  rw [htgt] at hin
  rw [hin]
  exact hgrpd data rows hbefore

variable (hacyc : dag.Acyclic) (hred : ∀ v ∈ vs, (dag.op v).IsReduceByKey)
  (hgrpd : ∀ v ∈ vs, InputGrouped splitTuple tupleCat dag v)

include hacyc hred hgrpd

/-- An operator obeys its old meaning if it and all before it obey their new ones.  The induction is along the flows. -/
theorem obeys_of_regroup (hu : u ∈ dag.operators) (h : ∀ w ∈ dag.operators, w = u ∨ Reaches dag.edges w u →
      (regroup vs dag).Obeys (PlanOperator.Emits splitTuple tupleCat) data rows w) :
    dag.Obeys (PlanOperator.Emits splitTuple tupleCat) data rows u := by
  obtain ⟨rank, hrank⟩ := acyclic_iff_rank.mp hacyc
  induction hn : rank u using Nat.strong_induction_on generalizing u with
  | h n ih =>
    have hbefore : ∀ w ∈ dag.operators, Reaches dag.edges w u →
        dag.Obeys (PlanOperator.Emits splitTuple tupleCat) data rows w := by
      intro w hw hreach
      refine ih (rank w) (hn ▸ hrank.lt_of_reaches hreach) hw (fun w' hw' hor => h w' hw' (.inr ?_)) rfl
      rcases hor with rfl | hreach'
      · exact hreach
      · exact hreach'.trans hreach
    obtain ⟨ins, hfeeds, hemits⟩ := h u hu (.inl rfl)
    have hfeeds : dag.Feeds data rows u ins := ⟨hfeeds.flow, hfeeds.input⟩
    refine ⟨ins, hfeeds, ?_⟩
    by_cases hmem : u ∈ vs
    · obtain ⟨func, hkind⟩ := hred u hmem
      rw [op_regroup_of_mem hmem] at hemits
      exact emits_of_grouped hkind ((hgrpd u hmem).of_feeds hfeeds hbefore) hemits
    · rwa [op_regroup_of_notMem hmem] at hemits

theorem executes_of_regroup (h : (regroup vs dag).Executes (PlanOperator.Emits splitTuple tupleCat) data rows) :
    dag.Executes (PlanOperator.Emits splitTuple tupleCat) data rows :=
  fun _ hu => obeys_of_regroup hacyc hred hgrpd hu fun w hw _ => h w hw

/-- **Grouped reductions in the place of others keep the results.** -/
theorem sameResults_regroup (hports : dag.PortsSingle) : SameResults splitTuple tupleCat dag (regroup vs dag) where
  refines data streams := by
    rintro ⟨rows, hexec, hresults⟩
    exact ⟨rows, executes_of_regroup hacyc hred hgrpd hexec, hresults⟩
  responds hresponsive data := by
    have hanswers : ∀ v ∈ dag.operators, ∀ ins, ∃ outs,
        ((regroup vs dag).op v).Emits splitTuple tupleCat ins outs := by
      intro v hv ins
      by_cases hmem : v ∈ vs
      · obtain ⟨func, hkind⟩ := hred v hmem
        rw [op_regroup_of_mem hmem]
        exact ⟨groupedOuts splitTuple tupleCat func ins fun _ => [], emits_groupedOuts hkind⟩
      · rw [op_regroup_of_notMem hmem]
        exact hresponsive v hv ins
    -- an execution is built from nothing: no stream has to be kept
    have hnothing : ∀ v ∈ dag.operators, ∃ ins, dag.Feeds data (fun _ => ([] : List R)) v ins ∧ True := by
      intro v _
      exact (hports.exists_feeds data _ v).imp fun _ hfeeds => ⟨hfeeds, trivial⟩
    obtain ⟨rows, -, hexec⟩ : ∃ rows, (∀ tip : FlowTip, True) ∧
        (regroup vs dag).Executes (PlanOperator.Emits splitTuple tupleCat) data rows :=
      PortedDag.exists_execution hacyc hports (fun _ _ => True) (fun _ => trivial) (fun _ _ => True) hnothing
        (regroup vs dag).op fun v hv _ ins' _ _ _ _ _ => (hanswers v hv ins').imp fun _ houts => ⟨fun _ => trivial, houts⟩
    exact ⟨_, rows, hexec, rfl⟩
  keeps hreorderable data streams := by
    rintro ⟨rows, hexec, rfl⟩
    obtain ⟨rows', hperm, hexec'⟩ := PortedDag.exists_execution hacyc hports List.Perm List.Perm.refl
      (fun v ins => (dag.op v).Emits splitTuple tupleCat ins fun port => rows ⟨v, port⟩) hexec
      (regroup vs dag).op fun v hv ins ins' rows' hemits hins hfeeds hbefore => by
        obtain ⟨outs', houts, hemits'⟩ := hreorderable v hv ins _ ins' hemits hins
        by_cases hmem : v ∈ vs
        · obtain ⟨func, hkind⟩ := hred v hmem
          -- the operators before it have answered, so its input is still grouped
          have hkeys : Grouped ((ins' 0).map fun t => (splitTuple t).1) := by
            refine (hgrpd v hmem).of_feeds hfeeds fun u hu hreach => ?_
            refine obeys_of_regroup hacyc hred hgrpd hu fun w hw hor => hbefore w hw ?_
            rcases hor with rfl | hreach'
            · exact hreach
            · exact hreach'.trans hreach
          rw [op_regroup_of_mem hmem]
          exact ⟨groupedOuts splitTuple tupleCat func ins' outs',
            fun port => (houts port).trans (perm_groupedOuts hkind hkeys hemits' port), emits_groupedOuts hkind⟩
        · rw [op_regroup_of_notMem hmem]
          exact ⟨outs', houts, hemits'⟩
    refine ⟨_, ⟨rows', hexec', rfl⟩, ?_⟩
    rw [PortedDag.results, PortedDag.results, forall₂_map_left_iff, forall₂_map_right_iff]
    exact forall₂_same.mpr fun e _ => ⟨rfl, hperm e.2⟩

end Results

/-! ### The pass -/

theorem isMarked_eq_some {b : Bool} (hred : (dag.op v).IsReduceByKey) : isMarked dag v = some b ↔
    ∃ f, dag.graph.inFlow v = some f ∧ ∃ key, (dag.op f.source.op).fields[0]? = some key ∧ key.has .grouped = b := by
  obtain ⟨func, hkind⟩ := hred
  unfold isMarked
  simp only [hkind, bind_eq_bind, bind_eq_some_iff, Dag.predecessor, map_eq_some_iff, some.injEq]
  constructor
  · rintro ⟨_, ⟨f, hf, rfl⟩, key, hkey, hb⟩
    exact ⟨f, hf, key, hkey, hb⟩
  · rintro ⟨f, hf, key, hkey, hb⟩
    exact ⟨_, ⟨f, hf, rfl⟩, key, hkey, hb⟩

theorem isReduceByKey_of_isMarked (h : isMarked dag v = some true) : (dag.op v).IsReduceByKey := by
  unfold isMarked at h
  split at h
  · next func hkind => exact ⟨func, hkind⟩
  · cases h

/-- The visitor looks at every `ReduceByKey`, which has to have one producer. -/
theorem isSome_isMarked_iff (h : PlanChecked dag) :
    (isMarked dag v).isSome ↔ ((dag.op v).IsReduceByKey → dag.graph.inDegree v = 1) := by
  by_cases hred : (dag.op v).IsReduceByKey
  · rw [isSome_iff_exists]
    constructor
    · rintro ⟨b, hb⟩ -
      obtain ⟨f, hf, -⟩ := (isMarked_eq_some hred).mp hb
      rw [Dag.inDegree, Dag.single_eq_some.mp hf]
      rfl
    · intro hdeg
      obtain ⟨f, hf⟩ := length_eq_one_iff.mp (hdeg hred)
      have hmem : f ∈ dag.graph.inFlows v := hf ▸ mem_singleton_self f
      obtain ⟨hflow, htgt⟩ := Dag.mem_inFlows.mp hmem
      obtain ⟨key, rest, hfields⟩ := exists_cons_of_ne_nil (h.key f hflow (htgt.symm ▸ hred))
      exact ⟨_, (isMarked_eq_some hred).mpr ⟨f, Dag.single_eq_some.mpr hf, key, by rw [hfields]; rfl, rfl⟩⟩
  · refine iff_of_true ?_ fun h => absurd h hred
    unfold isMarked
    split
    · next func hkind => exact absurd ⟨func, hkind⟩ hred
    · rfl

theorem inputGrouped_of_isMarked [BEq K] {splitTuple : R → K × V} {tupleCat : K × V → R} (h : PlanChecked dag)
    (hmarks : MarksCorrect splitTuple tupleCat dag) (hmarked : isMarked dag v = some true) :
    InputGrouped splitTuple tupleCat dag v := by
  have hred := isReduceByKey_of_isMarked hmarked
  obtain ⟨f, hf, hkey⟩ := (isMarked_eq_some hred).mp hmarked
  obtain ⟨hflow, htgt⟩ := Dag.mem_of_inFlow hf
  have hport := h.targetPort f hflow (htgt.symm ▸ hred)
  have htip : f.target = ⟨v, 0⟩ := by
    rw [← htgt, ← hport]
  have hreach : Reaches dag.edges f.source.op v := htgt ▸ PortedDag.reaches_of_flow hflow
  refine ⟨f, hflow, htip, fun data rows hbefore => hmarks f hflow hkey data rows fun u hu hor => hbefore u hu ?_⟩
  rcases hor with rfl | hor
  · exact hreach
  · exact hor.trans hreach

/-- New operators are at addresses of their own. -/
structure FreshAddresses (address : ℕ → ℕ) (dag : PortedDag (PlanOperator R V)) : Prop where
  fresh : ∀ v ∈ dag.operators, address v ∉ dag.operators
  injOn : Set.InjOn address { v | v ∈ dag.operators }

theorem pending_reduceByKeys (h : PlanChecked dag) (haddr : FreshAddresses address dag) :
    Pending address dag (dag.operators.filter fun v => isMarked dag v = some true) where
  nodup := h.closed.nodup.filter _
  mem _ hv := (mem_filter.mp hv).1
  reduce _ hv := isReduceByKey_of_isMarked (of_decide_eq_true (mem_filter.mp hv).2)
  fresh v hv := haddr.fresh v (mem_filter.mp hv).1
  distinct := (h.closed.nodup.filter _).map_on fun _ hu _ hw heq =>
    haddr.injOn (mem_filter.mp hu).1 (mem_filter.mp hw).1 heq

theorem groupedReduceByKey_eq_some : groupedReduceByKey address dag = some dag' ↔
    (∀ v ∈ dag.operators, (isMarked dag v).isSome) ∧ (dag.operators.filter fun v => isMarked dag v = some true).foldlM
        (fun dag v => groupReduce dag v (address v)) dag = some dag' := by
  unfold groupedReduceByKey reduceByKeys
  rw [bind_eq_bind, bind_eq_some_iff]
  constructor
  · rintro ⟨vs, hvs, hrun⟩
    obtain ⟨hsome, heq⟩ := ite_none_right_eq_some.mp hvs
    cases heq
    exact ⟨hsome, hrun⟩
  · rintro ⟨hsome, hrun⟩
    exact ⟨_, if_pos hsome, hrun⟩

theorem sameResults_groupedReduceByKey [BEq K] [PartialEquivBEq K] {splitTuple : R → K × V} {tupleCat : K × V → R}
    (h : PlanChecked dag) (haddr : FreshAddresses address dag) (hmarks : MarksCorrect splitTuple tupleCat dag)
    (hrun : groupedReduceByKey address dag = some dag') : SameResults splitTuple tupleCat dag dag' := by
  obtain ⟨-, hrun⟩ := groupedReduceByKey_eq_some.mp hrun
  have hpend := pending_reduceByKeys h haddr
  obtain ⟨ρ, hren⟩ := (foldlM_groupReduce h hpend).2 dag' hrun
  set vs := dag.operators.filter fun v => isMarked dag v = some true
  have hsame : SameResults splitTuple tupleCat dag (regroup vs dag) :=
    sameResults_regroup h.acyclic hpend.reduce
      (fun v hv => inputGrouped_of_isMarked h hmarks (of_decide_eq_true (mem_filter.mp hv).2)) h.ports
  have hiff : ∀ data streams, dag'.Returns (PlanOperator.Emits splitTuple tupleCat) data streams ↔
      (regroup vs dag).Returns (PlanOperator.Emits splitTuple tupleCat) data streams :=
    fun _ _ => hren.returns_iff (h.regroup vs).closed
  refine ⟨fun data streams hrets => ?_, fun hresponsive data => ?_, fun hreorderable data streams hrets => ?_⟩
  · exact hsame.refines data streams ((hiff data streams).mp hrets)
  · exact (hsame.responds hresponsive data).imp fun streams => (hiff data streams).mpr
  · obtain ⟨streams', hrets', hperm⟩ := hsame.keeps hreorderable data streams hrets
    exact ⟨streams', (hiff data streams').mpr hrets', hperm⟩

/-- **The two reductions agree on grouped input, and the pass keeps the results exactly if it can run.**  The first part is
    about the operators: they return one tuple per key, with the left fold of the values of the key.  The second part is
    about plans with correct marks. -/
theorem groupedReduceByKey_preserves_iff [BEq K] [PartialEquivBEq K] (splitTuple : R → K × V) (tupleCat : K × V → R)
    (address : ℕ → ℕ) (dag : PortedDag (PlanOperator R V)) (h : PlanChecked dag) (haddr : FreshAddresses address dag)
    (hmarks : MarksCorrect splitTuple tupleCat dag) :
    (∀ (func : V → V → V) (iteration : List (K × V) → List (K × V)) (upstream : Pull.Iter R) (xs : List R),
      (∀ table, (iteration table).Perm table) → Nonempty (Pull.Replay upstream xs) →
      Grouped (xs.map fun t => (splitTuple t).1) → ∃ rows rows' : List R,
        Fuel.Returns (reduceByKeyGroupedOperator (fun t => (splitTuple t).1) (fun t => (splitTuple t).2) func tupleCat
          upstream).firstDrain rows ∧
        Fuel.Returns (reduceByKeyTable iteration splitTuple func tupleCat upstream).firstDrain rows' ∧
        rows = (foldByKey func [] (xs.map splitTuple)).map tupleCat ∧ rows.Perm rows') ∧
    ((∃ dag', groupedReduceByKey address dag = some dag' ∧ SameResults splitTuple tupleCat dag dag') ↔ Groupable dag) := by
  refine ⟨fun func iteration upstream xs hiteration ⟨hreplay⟩ hgrpd => ?_, ?_, fun hgroupable => ?_⟩
  · exact reductions_agree _ _ func iteration hiteration tupleCat hreplay hgrpd
  · rintro ⟨dag', hrun, -⟩
    obtain ⟨hsome, hrun⟩ := groupedReduceByKey_eq_some.mp hrun
    have hcan := (foldlM_groupReduce h (pending_reduceByKeys h haddr)).1.mp ⟨dag', hrun⟩
    refine ⟨fun v hv => (isSome_isMarked_iff h).mp (hsome v hv), fun v hv hmarked => hcan v ?_⟩
    exact mem_filter.mpr ⟨hv, decide_eq_true hmarked⟩
  · obtain ⟨dag', hrun⟩ := (foldlM_groupReduce h (pending_reduceByKeys h haddr)).1.mpr fun v hv =>
      hgroupable.consumer v (mem_filter.mp hv).1 (of_decide_eq_true (mem_filter.mp hv).2)
    have hrun := groupedReduceByKey_eq_some.mpr
      ⟨fun v hv => (isSome_isMarked_iff h).mpr (hgroupable.producer v hv), hrun⟩
    exact ⟨dag', hrun, sameResults_groupedReduceByKey h haddr hmarks hrun⟩

def groupedFlows : List Flow := [⟨⟨0, 0⟩, ⟨1, 0⟩⟩, ⟨⟨1, 0⟩, ⟨2, 0⟩⟩]

/-- A source of pairs with grouped keys, a reduction of them and an operator that hands on what it reads. -/
def groupedPlan (output : ℕ) : PortedDag (PlanOperator (ℤ × ℤ) ℤ) where
  operators := [0, 1, 2]
  op
    | 0 => ⟨[⟨0, {.grouped}⟩], .other fun _ outs => outs 0 = [(1, 9), (1, 2), (3, 4)]⟩
    | 1 => ⟨[⟨0, ∅⟩], .reduceByKey (· - ·)⟩
    | _ => ⟨[⟨0, ∅⟩], .other fun ins outs => outs 0 = ins 0⟩
  flows := groupedFlows
  inputs := ∅
  outputs := (∅ : Map ℕ FlowTip).assign 0 ⟨output, 0⟩

theorem groupedPlan_outputs (output : ℕ) : (groupedPlan output).outputs.entries = [(0, ⟨output, 0⟩)] := rfl

theorem groupedPlan_checked {output : ℕ} (hout : output ∈ [0, 1, 2]) : PlanChecked (groupedPlan output) where
  closed := by
    refine ⟨?_, ?_, ?_, nofun, fun e he => ?_⟩
    · show ([0, 1, 2] : List ℕ).Nodup
      decide
    · show ∀ f ∈ groupedFlows, f.source.op ∈ [0, 1, 2]
      decide
    · show ∀ f ∈ groupedFlows, f.target.op ∈ [0, 1, 2]
      decide
    · rw [groupedPlan_outputs, mem_singleton] at he
      rw [he]
      exact hout
  acyclic := by
    have hranked : Ranked (groupedFlows.map fun f => (f.source.op, f.target.op)) id := by
      unfold Ranked
      decide
    exact hranked.acyclic
  ports := by
    refine ⟨?_, nofun, nofun⟩
    show ∀ f ∈ groupedFlows, ∀ g ∈ groupedFlows, f.target = g.target → f.source = g.source
    decide
  sourcePort f hf _ := by
    have hports : ∀ f ∈ groupedFlows, f.source.port = 0 := by decide
    exact hports f hf
  targetPort f hf _ := by
    have hports : ∀ f ∈ groupedFlows, f.target.port = 0 := by decide
    exact hports f hf
  key f hf _ := by
    rcases mem_pair.mp hf with rfl | rfl <;> exact cons_ne_nil _ _

theorem groupedPlan_freshAddresses (output : ℕ) : FreshAddresses (· + 10) (groupedPlan output) where
  fresh := by
    show ∀ v ∈ [0, 1, 2], v + 10 ∉ [0, 1, 2]
    decide
  injOn := (add_left_injective 10).injOn

theorem groupedPlan_marksCorrect (output : ℕ) : MarksCorrect id id (groupedPlan output) := by
  intro f hf hmarked data rows hobeys
  rcases mem_pair.mp hf with rfl | rfl
  · obtain ⟨ins, -, hemits⟩ := hobeys 0 mem_cons_self (.inl rfl)
    have hrows : rows ⟨0, 0⟩ = [(1, 9), (1, 2), (3, 4)] := hemits
    show Grouped ((rows ⟨0, 0⟩).map Prod.fst)
    rw [hrows]
    intro x y z hsub hxz
    -- the three keys are all there are
    obtain ⟨rfl, rfl, rfl⟩ : x = 1 ∧ y = 1 ∧ z = 3 := by simpa using hsub.eq_of_length rfl
    rfl
  · -- the reduction itself carries no mark
    obtain ⟨key, hkey, hhas⟩ := hmarked
    obtain rfl : (⟨0, ∅⟩ : Field) = key := some.inj hkey
    exact absurd hhas (by decide)

theorem groupedPlan_groupable : Groupable (groupedPlan 2) where
  producer v hv hred := by
    have hcases : v = 0 ∨ v = 1 ∨ v = 2 := by simpa [groupedPlan] using hv
    rcases hcases with rfl | rfl | rfl
    · exact nomatch hred
    · decide
    · exact nomatch hred
  consumer v hv hmarked := by
    have hcases : v = 0 ∨ v = 1 ∨ v = 2 := by simpa [groupedPlan] using hv
    rcases hcases with rfl | rfl | rfl
    · exact absurd hmarked (by decide)
    · exact ⟨by decide, by decide, nofun, by decide⟩
    · exact absurd hmarked (by decide)

/-- A plan whose output is behind the reduction. -/
theorem groupedReduceByKey_preserves_groupedPlan :
    ∃ dag', groupedReduceByKey (· + 10) (groupedPlan 2) = some dag' ∧ SameResults id id (groupedPlan 2) dag' :=
  (groupedReduceByKey_preserves_iff id id (· + 10) (groupedPlan 2) (groupedPlan_checked (by decide))
    (groupedPlan_freshAddresses 2) (groupedPlan_marksCorrect 2)).2.mpr groupedPlan_groupable

/-- The reduction is the output of the plan: the pass takes its consumer, but cannot remove it. -/
theorem groupedReduceByKey_rejects_output : PlanChecked (groupedPlan 1) ∧ MarksCorrect id id (groupedPlan 1) ∧
    (groupedReduceByKey (· + 10) (groupedPlan 1)).isNone := by
  refine ⟨groupedPlan_checked (by decide), groupedPlan_marksCorrect 1, ?_⟩
  decide

end Jitq.Optimize

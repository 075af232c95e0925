import Jitq.Optimize.InnerInputs

namespace Jitq.Optimize

open SortedMap Partial SortBy NestedDag Graphs List

/-! # Canonical forms

* `Isomorphic` — plans that differ in ids, orders and the numbering of the inputs of inner DAGs;
* `SameCanonical` — plans with equal ids and orders;
* `canonicalize_canonical` — isomorphic plans have the same canonical form. -/

/-! ### Plans and isomorphisms -/

/-- The input ports of an operator and of its inner DAG: each has an in-flow and a consumer. -/
structure PortsFed {n : ℕ} (dag : OpDag (NestedDag n)) (v : ℕ) (inner : NestedDag n) : Prop where
  fed : ∀ i < (dag.op v).operator.cls.numInPorts, ∃ f ∈ dag.flows, f.target = ⟨v, i⟩
  port : ∀ f ∈ dag.flows, f.target.op = v → f.target.port < (dag.op v).operator.cls.numInPorts
  inputs : ∀ i, i ∈ inner.inputs.keys ↔ i < (dag.op v).operator.cls.numInPorts

/-- Plans with one sink and one in-flow per port on every level. -/
def Canonicalizable : (n : ℕ) → NestedDag n → Prop
  | 0, dag => nomatch dag
  | n + 1, (dag : OpDag (NestedDag n)) => SingleSink dag ∧
    ∀ v ∈ dag.operators, ∀ inner ∈ (dag.op v).innerDag, Canonicalizable n inner ∧ PortsFed dag v inner

/-- `dag'` is `dag` with other addresses and ids, given by `ρ`, other input ports of the operators with
    inner DAGs, given by `σ`, and other input ports of the DAG itself, given by `π`. -/
structure IsoVia {Inner : Type} (innerIso : (ℕ → ℕ) → Inner → Inner → Prop) (π : ℕ → ℕ)
    (dag dag' : OpDag Inner) (ρ : ℕ → ℕ) (σ : ℕ → ℕ → ℕ) : Prop where
  injective : ∀ u ∈ dag.operators, ∀ v ∈ dag.operators, ρ u = ρ v → u = v
  operators : dag'.operators.Perm (dag.operators.map ρ)
  operator : ∀ v ∈ dag.operators,
    (dag'.op (ρ v)).operator = { (dag.op v).operator with id := (dag'.op (ρ v)).operator.id }
  innerDag : ∀ v ∈ dag.operators, Option.Rel (innerIso (σ v)) (dag.op v).innerDag (dag'.op (ρ v)).innerDag
  renumbered : ∀ v ∈ dag.operators, ∀ inner ∈ (dag.op v).innerDag,
    ((range (dag.op v).operator.cls.numInPorts).map (σ v)).Perm
      (range (dag.op v).operator.cls.numInPorts)
  kept : ∀ v ∈ dag.operators, (dag.op v).innerDag = none → ∀ i, σ v i = i
  flows : dag'.flows.Perm (dag.flows.map fun f =>
    ⟨f.source.rename ρ, ⟨ρ f.target.op, σ f.target.op f.target.port⟩⟩)
  inputs : dag'.inputs.entries.Perm (dag.inputs.entries.map fun e => (π e.1, e.2.rename ρ))
  outputs : dag'.outputs.entries = dag.outputs.entries.map fun e => (e.1, e.2.rename ρ)

/-- Plans that differ in ids, in the order of operators and flows, in the numbering of the input ports of
    operators with inner DAGs and, by `π`, of the plan itself. -/
def IsoUpTo : (n : ℕ) → (ℕ → ℕ) → NestedDag n → NestedDag n → Prop
  | 0, _, dag, _ => nomatch dag
  | n + 1, π, dag, dag' => ∃ ρ σ, IsoVia (IsoUpTo n) π dag dag' ρ σ

/-- Isomorphic plans. -/
def Isomorphic (n : ℕ) (dag dag' : NestedDag n) : Prop := IsoUpTo n id dag dag'

/-- `dag'` is `dag` with other addresses, given by `ρ`: ids and orders are the same. -/
structure SameVia {Inner : Type} (same : Inner → Inner → Prop) (π : ℕ → ℕ)
    (dag dag' : OpDag Inner) (ρ : ℕ → ℕ) : Prop where
  injective : ∀ u ∈ dag.operators, ∀ v ∈ dag.operators, ρ u = ρ v → u = v
  operators : dag'.operators = dag.operators.map ρ
  operator : ∀ v ∈ dag.operators, (dag'.op (ρ v)).operator = (dag.op v).operator
  innerDag : ∀ v ∈ dag.operators, Option.Rel same (dag.op v).innerDag (dag'.op (ρ v)).innerDag
  flows : dag'.flows = dag.flows.map (Flow.rename ρ)
  inputs : dag'.inputs.entries.Perm (dag.inputs.entries.map fun e => (π e.1, e.2.rename ρ))
  outputs : dag'.outputs.entries = dag.outputs.entries.map fun e => (e.1, e.2.rename ρ)

/-- Plans with the same ids, the same order of operators and flows and the same sets of inputs and
    outputs, up to a renumbering `π` of the input ports. -/
def SameUpTo : (n : ℕ) → (ℕ → ℕ) → NestedDag n → NestedDag n → Prop
  | 0, _, dag, _ => nomatch dag
  | n + 1, π, dag, dag' => ∃ ρ, SameVia (SameUpTo n id) π dag dag' ρ

/-- Plans with the same ids, the same order of operators and flows and the same sets of inputs and
    outputs. -/
def SameCanonical (n : ℕ) (dag dag' : NestedDag n) : Prop := SameUpTo n id dag dag'

/-! ### Inner DAGs -/

section

variable {n : ℕ}

theorem Canonicalizable.tip {inner : NestedDag n} (h : Canonicalizable n inner) :
    ∀ e ∈ inner.inputs.entries, e.2.op ∈ inner.operators := by
  cases n with
  | zero => cases inner
  | succ n => exact h.1.closed.input

theorem Canonicalizable.nodup_tips {inner : NestedDag n} (h : Canonicalizable n inner) :
    (inner.inputs.entries.map Prod.snd).Nodup := by
  cases n with
  | zero => cases inner
  | succ n => exact h.1.input

end

/-! ### One level -/

variable {v : ℕ}

section

variable {n : ℕ} {canonicalizeInner : NestedDag n → Option (NestedDag n)}
  {dag : OpDag (NestedDag n)} {canonical : NestedDag n → NestedDag n}

/-- A plan whose inner DAGs have the given canonical forms. -/
structure InnerCanonical (canonicalizeInner : NestedDag n → Option (NestedDag n))
    (dag : OpDag (NestedDag n)) (canonical : NestedDag n → NestedDag n) : Prop where
  singleSink : SingleSink dag
  inner : ∀ v ∈ dag.operators, ∀ inner ∈ (dag.op v).innerDag, canonicalizeInner inner = some (canonical inner)
  numbered : ∀ v ∈ dag.operators, ∀ inner ∈ (dag.op v).innerDag,
    Numbered (canonical inner) (dag.op v).operator.cls.numInPorts
  fed : ∀ v ∈ dag.operators, ∀ inner ∈ (dag.op v).innerDag,
    ∀ i < (dag.op v).operator.cls.numInPorts, ∃ f ∈ dag.flows, f.target = ⟨v, i⟩
  port : ∀ f ∈ dag.flows, ∀ inner ∈ (dag.op f.target.op).innerDag,
    f.target.port < (dag.op f.target.op).operator.cls.numInPorts

section

variable {dag dag' : OpDag (NestedDag n)} {g : Flow → Flow} (hops : dag'.operators.Perm dag.operators)
  (hflows : dag'.flows.Perm (dag.flows.map g)) (hg : ∀ f, (g f).source = f.source ∧ (g f).target.op = f.target.op)

include hflows hg

theorem exists_flow_of_perm {f : Flow} (hf : f ∈ dag'.flows) :
    ∃ f0 ∈ dag.flows, g f0 = f ∧ f.source = f0.source ∧ f.target.op = f0.target.op := by
  obtain ⟨f0, hf0, rfl⟩ := mem_map.mp (hflows.mem_iff.mp hf)
  exact ⟨f0, hf0, rfl, hg f0⟩

theorem acyclic_of_perm (hacyc : dag.Acyclic) : dag'.Acyclic := by
  refine Graphs.Acyclic.mono hacyc fun e he => ?_
  obtain ⟨f, hf, rfl⟩ := mem_map.mp he
  obtain ⟨f0, hf0, -, hsrc, htgt⟩ := exists_flow_of_perm hflows hg hf
  rw [hsrc, htgt]
  exact mem_map_of_mem hf0

include hops

theorem closed_of_perm (hclosed : dag.Closed) (hinp : ∀ e ∈ dag'.inputs.entries, e.2.op ∈ dag.operators)
    (houts : dag'.outputs = dag.outputs) : dag'.Closed := by
  refine ⟨hops.nodup_iff.mpr hclosed.nodup, fun f hf => ?_, fun f hf => ?_, fun e he => hops.mem_iff.mpr (hinp e he),
    fun e he => hops.mem_iff.mpr (hclosed.output e (houts ▸ he))⟩
  · obtain ⟨f0, hf0, -, hsrc, -⟩ := exists_flow_of_perm hflows hg hf
    exact hops.mem_iff.mpr (hsrc ▸ hclosed.source f0 hf0)
  · obtain ⟨f0, hf0, -, -, htgt⟩ := exists_flow_of_perm hflows hg hf
    exact hops.mem_iff.mpr (htgt ▸ hclosed.target f0 hf0)

/-- Only the graph, the inputs and the outputs matter. -/
theorem SingleSink.of_perm (h : SingleSink dag)
    (hinj : ∀ f ∈ dag.flows, ∀ f' ∈ dag.flows, (g f).target = (g f').target → f.target = f'.target)
    (hinp : ∀ e ∈ dag'.inputs.entries, e.2.op ∈ dag.operators) (hnd : (dag'.inputs.entries.map Prod.snd).Nodup)
    (houts : dag'.outputs = dag.outputs) : SingleSink dag' := by
  refine ⟨closed_of_perm hops hflows hg h.closed hinp houts, acyclic_of_perm hflows hg h.acyclic, ?_, ?_, hnd⟩
  · obtain ⟨sink, hsink, hiff⟩ := h.sink
    refine ⟨sink, hops.mem_iff.mpr hsink, fun v hv => ?_⟩
    have hperm : (dag'.graph.outFlows v).Perm ((dag.graph.outFlows v).map g) := by
      refine (hflows.filter _).trans (List.Perm.of_eq ?_)
      rw [filter_map]
      refine congrArg (List.map g) (filter_congr fun f _ => ?_)
      rw [Function.comp_apply, (hg f).1]
    rw [← hiff v (hops.mem_iff.mp hv)]
    exact ⟨fun hnil => map_eq_nil_iff.mp (hnil ▸ hperm).symm.eq_nil, fun hnil => (hnil ▸ hperm :).eq_nil⟩
  · refine (hflows.map Flow.target).nodup_iff.mpr ?_
    rw [map_map]
    refine List.Nodup.map_on (fun f hf f' hf' heq => ?_) (List.Nodup.of_map _ h.target)
    exact h.port f hf f' hf' (hinj f hf f' hf' heq)

end

theorem newPort_of_none (hnone : (dag.op v).innerDag = none) (i : ℕ) : newPort dag canonical v i = i := by
  rw [newPort, hnone]

theorem newPort_of_some {inner : NestedDag n} (hinner : (dag.op v).innerDag = some inner) (i : ℕ) :
    newPort dag canonical v i = (portOrder (canonical inner) (dag.op v).operator.cls.numInPorts).idxOf i := by
  rw [newPort, hinner]

namespace InnerCanonical

theorem orderable (h : InnerCanonical canonicalizeInner dag canonical) :
    Orderable canonicalizeInner dag canonical where
  closed := h.singleSink.closed
  acyclic := h.singleSink.acyclic
  target := h.singleSink.target
  inner := h.inner
  fed := h.fed
  port := h.port
  consumer v hv inner hinner _ hi := (h.numbered v hv inner hinner).equalRange_ne_nil hi
  tip v hv inner hinner := (h.numbered v hv inner hinner).tip

theorem newPort_inj (h : InnerCanonical canonicalizeInner dag canonical) {f g : Flow} (hf : f ∈ dag.flows)
    (hop : f.target.op = g.target.op)
    (hport : newPort dag canonical f.target.op f.target.port = newPort dag canonical g.target.op g.target.port) :
    f.target.port = g.target.port := by
  rw [← hop] at hport
  cases hinner : (dag.op f.target.op).innerDag with
  | none => rwa [newPort_of_none hinner, newPort_of_none hinner] at hport
  | some inner =>
    rw [newPort_of_some hinner, newPort_of_some hinner] at hport
    exact Numbered.idxOf_portOrder_inj (h.port f hf inner hinner) hport

end InnerCanonical

namespace OrderedUpTo

variable {dag' : OpDag (NestedDag n)}

section

variable (hdone : OrderedUpTo dag canonical dag.operators dag')

include hdone

theorem flows_perm (hclosed : dag.Closed) : dag'.flows.Perm (dag.flows.map (retarget dag canonical)) := by
  refine perm_iff_count.mpr fun f => ?_
  have hperm : (dag'.graph.inFlows f.target.op).Perm
      ((dag.flows.map (retarget dag canonical)).filter fun g => g.target.op = f.target.op) := by
    have hflows := hdone.flows f.target.op
    rw [filter_map]
    show _ ~ (dag.graph.inFlows f.target.op).map (retarget dag canonical)
    split at hflows
    · exact hflows
    · next hnot =>
      have hnil : dag.graph.inFlows f.target.op = [] := filter_eq_nil_iff.mpr fun g hg heq =>
        hnot (of_decide_eq_true heq ▸ hclosed.target g hg)
      rwa [hnil] at hflows ⊢
  have hcount := hperm.count_eq f
  rwa [Dag.inFlows, count_filter (by simp), count_filter (by simp)] at hcount

theorem op_eq (hv : v ∈ dag.operators) : dag'.op v = orderedVertex dag canonical v := by
  rw [hdone.op]
  exact if_pos hv

theorem closed (hclosed : dag.Closed) : dag'.Closed :=
  closed_of_perm (List.Perm.of_eq hdone.operators) (hdone.flows_perm hclosed) (fun _ => ⟨rfl, rfl⟩) hclosed
    (hdone.inputs ▸ hclosed.input) hdone.outputs

theorem acyclic (hclosed : dag.Closed) (hacyc : dag.Acyclic) : dag'.Acyclic :=
  acyclic_of_perm (hdone.flows_perm hclosed) (fun _ => ⟨rfl, rfl⟩) hacyc

theorem singleSink (h : InnerCanonical canonicalizeInner dag canonical) : SingleSink dag' := by
  refine h.singleSink.of_perm (List.Perm.of_eq hdone.operators) (hdone.flows_perm h.singleSink.closed)
    (fun _ => ⟨rfl, rfl⟩) (fun f hf g hg heq => ?_) (hdone.inputs ▸ h.singleSink.closed.input)
    (hdone.inputs ▸ h.singleSink.input) hdone.outputs
  obtain ⟨hop, hport⟩ := FlowTip.mk.inj heq
  exact congrArg₂ FlowTip.mk hop (h.newPort_inj hf hop hport)

end

end OrderedUpTo

/-- What the pass does on one level: the ports are ordered, then the operators are labelled and numbered. -/
structure Level (topSort : TopologicalSort ℕ) (dag : OpDag (NestedDag n)) (canonical : NestedDag n → NestedDag n)
    (dag' : OpDag (NestedDag n)) (label : ℕ → String) : Prop where
  fold : dag.operators.foldlM (orderInputs (canonicalize topSort n)) dag = some dag'
  done : OrderedUpTo dag canonical dag.operators dag'
  sink : SingleSink dag'
  isLabel : IsCombinedLabel dag' label
  labels : combinedLabels topSort dag' = some (dag'.operators.map label)
  result : canonicalize topSort (n + 1) dag = some (renumbered dag' (sortBy label dag'.operators))

theorem InnerCanonical.run {topSort : TopologicalSort ℕ} (h : InnerCanonical (canonicalize topSort n) dag canonical)
    (hsort : IsTopologicalSort topSort) : ∃ dag' label, Level topSort dag canonical dag' label := by
  obtain ⟨dag', hfold, hdone⟩ := foldlM_orderInputs h.orderable
  have hsink := hdone.singleSink h
  obtain ⟨label, hlab, -, hlabs, hrelabel⟩ := relabel_eq hsort hsink
  refine ⟨dag', label, hfold, hdone, hsink, hlab, hlabs, ?_⟩
  rw [canonicalize, hfold, Option.bind_eq_bind, Option.bind_some, hrelabel]

end

/-! ### The pass succeeds -/

/-- What the level above needs to know of a canonical form. -/
structure FormOf {n : ℕ} (dag c : NestedDag n) : Prop where
  operators : c.operators.Perm dag.operators
  inputs : c.inputs = dag.inputs
  ids : ∀ u ∈ c.operators, ∀ v ∈ c.operators, c.idOf u = c.idOf v → u = v

variable {ids : List ℕ} {Inner : Type}

theorem idOf_renumbered {dag : OpDag Inner}
    (hv : v ∈ dag.operators) : (renumbered dag ids).idOf v = ids.idxOf v := by
  unfold PortedDag.idOf renumbered
  dsimp only
  rw [if_pos hv]

/-- The ids are the positions. -/
theorem map_idOf_renumbered {dag : OpDag Inner}
    (hperm : ids.Perm dag.operators) (hnd : dag.operators.Nodup) :
    (renumbered dag ids).operators.map (renumbered dag ids).idOf = range (renumbered dag ids).operators.length := by
  rw [operators_renumbered hperm hnd]
  refine ext_getElem (by simp) fun i hi hi' => ?_
  have hlen : i < ids.length := by simpa using hi
  have hmem : ids[i] ∈ dag.operators := hperm.mem_iff.mp (getElem_mem hlen)
  rw [getElem_map, idOf_renumbered hmem, (hperm.nodup_iff.mpr hnd).idxOf_getElem, getElem_range]

section

variable {topSort : TopologicalSort ℕ} {n : ℕ}

/-- The canonical form of a plan. -/
def canonicalForm (topSort : TopologicalSort ℕ) (n : ℕ) (dag : NestedDag n) : NestedDag n :=
  (canonicalize topSort n dag).getD dag

variable {dag : OpDag (NestedDag n)}

theorem FormOf.numbered {inner c : NestedDag n}
    (hform : FormOf inner c) (h : Canonicalizable n inner) (hports : PortsFed dag v inner) :
    Numbered c (dag.op v).operator.cls.numInPorts where
  tip e he := hform.operators.mem_iff.mpr (h.tip e (hform.inputs ▸ he))
  nodup := by
    rw [hform.inputs]
    exact h.nodup_tips
  ids := hform.ids
  keys i := by
    rw [hform.inputs]
    exact hports.inputs i

theorem Canonicalizable.innerCanonical (h : Canonicalizable (n + 1) dag)
    (hform : ∀ inner, Canonicalizable n inner → canonicalize topSort n inner =
      some (canonicalForm topSort n inner) ∧ FormOf inner (canonicalForm topSort n inner)) :
    InnerCanonical (canonicalize topSort n) dag (canonicalForm topSort n) where
  singleSink := h.1
  inner v hv inner hinner := (hform inner (h.2 v hv inner hinner).1).1
  numbered v hv inner hinner :=
    let ⟨hinner, hports⟩ := h.2 v hv inner hinner
    (hform inner hinner).2.numbered hinner hports
  fed v hv inner hinner := (h.2 v hv inner hinner).2.fed
  port f hf inner hinner := (h.2 _ (h.1.closed.target f hf) inner hinner).2.port f hf rfl

theorem Level.form {dag' : OpDag (NestedDag n)} {canonical : NestedDag n → NestedDag n} {label : ℕ → String}
    (h : Level topSort dag canonical dag' label) :
    canonicalForm topSort (n + 1) dag = renumbered dag' (sortBy label dag'.operators) := by
  rw [canonicalForm, h.result, Option.getD_some]

theorem Level.operators_perm {dag' : OpDag (NestedDag n)} {canonical : NestedDag n → NestedDag n} {label : ℕ → String}
    (h : Level topSort dag canonical dag' label) :
    (renumbered dag' (sortBy label dag'.operators)).operators.Perm dag.operators := by
  rw [operators_renumbered (sortBy_perm _ _) h.sink.closed.nodup, ← h.done.operators]
  exact sortBy_perm _ _

theorem exists_canonicalForm (hsort : IsTopologicalSort topSort) (n : ℕ) (dag : NestedDag n)
    (h : Canonicalizable n dag) : canonicalize topSort n dag =
      some (canonicalForm topSort n dag) ∧ FormOf dag (canonicalForm topSort n dag) := by
  induction n with
  | zero => cases dag
  | succ n ih =>
    have hlevel := h.innerCanonical ih
    obtain ⟨dag', label, hrun⟩ := hlevel.run hsort
    have hops := operators_renumbered (sortBy_perm label dag'.operators) hrun.sink.closed.nodup
    refine ⟨by rw [hrun.form, hrun.result], ?_⟩
    rw [hrun.form]
    refine ⟨hrun.operators_perm, hrun.done.inputs, ?_⟩
    · intro u hu v hv heq
      have hu : u ∈ sortBy label dag'.operators := hops ▸ hu
      have heq : (renumbered dag' (sortBy label dag'.operators)).idOf u =
        (renumbered dag' (sortBy label dag'.operators)).idOf v := heq
      rw [idOf_renumbered (mem_sortBy.mp hu), idOf_renumbered (mem_sortBy.mp hv)] at heq
      exact (idxOf_inj hu).mp heq

theorem Canonicalizable.level (h : Canonicalizable (n + 1) dag) (hsort : IsTopologicalSort topSort) :
    ∃ dag' label, Level topSort dag (canonicalForm topSort n) dag' label :=
  (h.innerCanonical (exists_canonicalForm hsort n)).run hsort

end

section

variable {topSort : TopologicalSort ℕ} {n : ℕ}

/-! ### The result is isomorphic -/

variable {m : MultiMap ℕ FlowTip} {Inner : Type} {dag : OpDag Inner}

theorem IsoUpTo.setInputs {dag c : NestedDag n} (h : IsoUpTo n id dag c) {π : ℕ → ℕ}
    (hm : m.entries.Perm (c.inputs.entries.map fun e => (π e.1, e.2))) : IsoUpTo n π dag (c.setInputs m) := by
  cases n with
  | zero => cases dag
  | succ n =>
    obtain ⟨ρ, σ, hvia⟩ := h
    refine ⟨ρ, σ, ⟨hvia.injective, hvia.operators, hvia.operator, hvia.innerDag, hvia.renumbered, hvia.kept,
      hvia.flows, ?_, hvia.outputs⟩⟩
    refine hm.trans ((hvia.inputs.map _).trans (List.Perm.of_eq ?_))
    rw [map_map]
    rfl

theorem op_renumbered (hv : v ∈ dag.operators) : (renumbered dag ids).op v =
      ⟨{ (dag.op v).operator with id := ids.idxOf v }, (dag.op v).innerDag⟩ :=
  if_pos hv

section

variable {dag dag' : OpDag (NestedDag n)} {canonical : NestedDag n → NestedDag n}
  (hdone : OrderedUpTo dag canonical dag.operators dag') {ids : List ℕ} {v : ℕ} (hv : v ∈ dag.operators)

include hdone hv

/-- The operators of a plan that has been renumbered. -/
theorem OrderedUpTo.op_renumbered : (renumbered dag' ids).op v =
      ⟨{ (dag.op v).operator with id := ids.idxOf v }, (orderedVertex dag canonical v).innerDag⟩ := by
  rw [Optimize.op_renumbered (hdone.operators ▸ hv), hdone.op_eq hv]
  rfl

/-- The inner DAGs of a plan that has been renumbered are canonical forms with ports in order. -/
theorem OrderedUpTo.exists_inner {inner : NestedDag n}
    (hinner : ((renumbered dag' ids).op v).innerDag = some inner) : ∃ inner0, (dag.op v).innerDag = some inner0 ∧
      ((renumbered dag' ids).op v).operator.cls.numInPorts = (dag.op v).operator.cls.numInPorts ∧
      inner = (canonical inner0).setInputs (orderedInputs (canonical inner0) (dag.op v).operator.cls.numInPorts) := by
  rw [hdone.op_renumbered hv] at hinner ⊢
  obtain ⟨inner0, hinner0, rfl⟩ := Option.map_eq_some_iff.mp hinner
  exact ⟨inner0, hinner0, rfl, rfl⟩

end

theorem isomorphic_canonicalForm (hsort : IsTopologicalSort topSort) (n : ℕ) (dag : NestedDag n)
    (h : Canonicalizable n dag) : Isomorphic n dag (canonicalForm topSort n dag) := by
  induction n with
  | zero => cases dag
  | succ n ih =>
    have hlevel := h.innerCanonical (exists_canonicalForm hsort n)
    obtain ⟨dag', label, hrun⟩ := h.level hsort
    have hdone := hrun.done
    rw [hrun.form]
    refine ⟨id, newPort dag (canonicalForm topSort n), ⟨fun _ _ _ _ heq => heq, ?_, ?_, ?_, ?_, ?_, ?_,
      ?_, ?_⟩⟩
    · rw [map_id]
      exact hrun.operators_perm
    · intro v hv
      rw [id, hdone.op_renumbered hv]
    · intro v hv
      rw [id, hdone.op_renumbered hv]
      cases hinner : (PortedDag.op dag v).innerDag with
      | none =>
        simp only [orderedVertex, hinner, Option.map_none]
        exact Option.Rel.none
      | some inner =>
        simp only [orderedVertex, hinner, Option.map_some]
        refine Option.Rel.some ((ih inner (h.2 v hv inner hinner).1).setInputs ?_)
        refine (hlevel.numbered v hv inner hinner).orderedInputs_perm.trans (List.Perm.of_eq ?_)
        exact map_congr_left fun e _ => by rw [newPort_of_some hinner]
    · intro v hv inner hinner
      refine List.Perm.trans (List.Perm.of_eq ?_)
        (Numbered.map_idxOf_perm (canonicalForm topSort n inner) _)
      exact map_congr_left fun i _ => newPort_of_some hinner i
    · exact fun v _ hnone i => newPort_of_none hnone i
    · exact (sortBy_perm _ _).trans (hdone.flows_perm h.1.closed)
    · show dag'.inputs.entries.Perm _
      rw [hdone.inputs]
      exact List.Perm.of_eq (map_id _).symm
    · show dag'.outputs.entries = _
      rw [hdone.outputs]
      exact (map_id _).symm

/-! ### Ids and labels -/

/-- The ids of every level are `0`, `1`, … in the order of the operators. -/
def ContiguousIds (n : ℕ) (dag : NestedDag n) : Prop :=
  Everywhere (fun dag => dag.operators.map dag.idOf = range dag.operators.length) n dag

/-- The combined path labels that the pass computes are pairwise distinct on every level. -/
def DistinctLabels (topSort : TopologicalSort ℕ) : (n : ℕ) → NestedDag n → Prop
  | 0, dag => nomatch dag
  | n + 1, (dag : OpDag (NestedDag n)) =>
    (∃ dag' labels, dag.operators.foldlM (orderInputs (canonicalize topSort n)) dag = some dag' ∧
      combinedLabels topSort dag' = some labels ∧ labels.Nodup) ∧
    ∀ v ∈ dag.operators, ∀ inner ∈ (dag.op v).innerDag, DistinctLabels topSort n inner

theorem ContiguousIds.setInputs {c : NestedDag n} (h : ContiguousIds n c) (m : MultiMap ℕ FlowTip) :
    ContiguousIds n (c.setInputs m) := by
  cases n with
  | zero => cases c
  | succ n => exact h

section

variable (hsort : IsTopologicalSort topSort) (n : ℕ) (dag : NestedDag n) (h : Canonicalizable n dag)

include hsort h

theorem contiguousIds_canonicalForm : ContiguousIds n (canonicalForm topSort n dag) := by
  induction n with
  | zero => cases dag
  | succ n ih =>
    obtain ⟨dag', label, hrun⟩ := h.level hsort
    rw [hrun.form]
    refine ⟨map_idOf_renumbered (sortBy_perm _ _) hrun.sink.closed.nodup, fun v hv inner hinner => ?_⟩
    have hv := hrun.operators_perm.mem_iff.mp hv
    obtain ⟨inner0, hinner0, -, rfl⟩ := hrun.done.exists_inner hv hinner
    exact (ih inner0 (h.2 v hv inner0 hinner0).1).setInputs _

theorem distinctLabels : DistinctLabels topSort n dag := by
  induction n with
  | zero => cases dag
  | succ n ih =>
    obtain ⟨dag', label, hrun⟩ := h.level hsort
    refine ⟨⟨dag', _, hrun.fold, hrun.labels, ?_⟩, fun v hv inner hinner => ih inner (h.2 v hv inner hinner).1⟩
    exact List.Nodup.map_on (fun u hu v hv => hrun.isLabel.distinct hrun.sink u hu v hv) hrun.sink.closed.nodup

end

/-! ### A second run -/

/-- A plan whose ports are in order is not changed by the loop over the operators. -/
theorem OrderedUpTo.eq_self {dag dag' : OpDag (NestedDag n)}
    (hdone : OrderedUpTo dag id dag.operators dag') (hclosed : dag.Closed)
    (hport : ∀ f ∈ dag.flows, ∀ inner ∈ (dag.op f.target.op).innerDag,
      f.target.port < (dag.op f.target.op).operator.cls.numInPorts)
    (hordered : ∀ v ∈ dag.operators, ∀ inner ∈ (dag.op v).innerDag,
      portOrder inner (dag.op v).operator.cls.numInPorts = range (dag.op v).operator.cls.numInPorts ∧
      inner.setInputs (orderedInputs inner (dag.op v).operator.cls.numInPorts) = inner) :
    dag'.op = dag.op ∧ dag'.flows.Perm dag.flows := by
  constructor
  · rw [hdone.op]
    funext v
    by_cases hv : v ∈ dag.operators
    · rw [if_pos hv, orderedVertex]
      cases hinner : (dag.op v).innerDag with
      | none =>
        show Vertex.mk _ none = _
        rw [← hinner]
      | some inner =>
        show Vertex.mk _ (some (inner.setInputs (orderedInputs inner _))) = _
        rw [(hordered v hv inner hinner).2, ← hinner]
    · exact if_neg hv
  · refine (hdone.flows_perm hclosed).trans (List.Perm.of_eq ?_)
    refine (map_congr_left fun f hf => ?_).trans (map_id _)
    have hnew : newPort dag id f.target.op f.target.port = f.target.port := by
      cases hinner : (dag.op f.target.op).innerDag with
      | none => exact newPort_of_none hinner _
      | some inner =>
        have hlt := hport f hf inner hinner
        rw [newPort_of_some hinner, id, (hordered _ (hclosed.target f hf) inner hinner).1]
        have hidx := nodup_range.idxOf_getElem f.target.port (by rwa [length_range])
        rwa [getElem_range] at hidx
    rw [retarget, hnew]
    rfl

namespace OrderedUpTo

variable {canonicalizeInner : NestedDag n → Option (NestedDag n)}
  {dag dag' : OpDag (NestedDag n)} {canonical : NestedDag n → NestedDag n}

section

variable (hdone : OrderedUpTo dag canonical dag.operators dag')
    (h : InnerCanonical canonicalizeInner dag canonical) {inner : NestedDag n}

include hdone h

/-- The operators still have a flow on every port. -/
theorem fed (hv : v ∈ dag.operators)
    (hinner : (dag.op v).innerDag = some inner) {i : ℕ} (hi : i < (dag.op v).operator.cls.numInPorts) :
    ∃ f ∈ dag'.flows, f.target = ⟨v, i⟩ := by
  have hlen : i < (portOrder (canonical inner) (dag.op v).operator.cls.numInPorts).length := by
    rwa [Numbered.length_portOrder]
  have hport := mem_range.mp ((portOrder_perm _ _).mem_iff.mp (getElem_mem hlen))
  obtain ⟨f, hf, htgt⟩ := h.fed v hv inner hinner _ hport
  refine ⟨retarget dag canonical f, (hdone.flows_perm h.singleSink.closed).mem_iff.mpr (mem_map_of_mem hf), ?_⟩
  rw [retarget, htgt]
  rw [newPort_of_some hinner, (Numbered.nodup_portOrder _ _).idxOf_getElem]

theorem port {f : Flow} (hf : f ∈ dag'.flows) (hinner : (dag.op f.target.op).innerDag = some inner) :
    f.target.port < (dag.op f.target.op).operator.cls.numInPorts := by
  obtain ⟨g, hg, rfl⟩ := mem_map.mp ((hdone.flows_perm h.singleSink.closed).mem_iff.mp hf)
  have hinner : (dag.op g.target.op).innerDag = some inner := hinner
  have hport := h.port g hg inner hinner
  show newPort dag canonical g.target.op g.target.port < (dag.op g.target.op).operator.cls.numInPorts
  rw [newPort_of_some hinner]
  refine (idxOf_lt_length_of_mem ?_).trans_eq (Numbered.length_portOrder _ _)
  exact (portOrder_perm _ _).mem_iff.mpr (mem_range.mpr hport)

end

end OrderedUpTo

section

variable {canonicalizeInner : NestedDag n → Option (NestedDag n)}
  {dag dag' : OpDag (NestedDag n)} {canonical : NestedDag n → NestedDag n}

/-- The canonical form can be canonicalized, whatever its inputs are. -/
theorem InnerCanonical.renumbered (h : InnerCanonical canonicalizeInner dag canonical)
    (hdone : OrderedUpTo dag canonical dag.operators dag') (ids : List ℕ) {m : MultiMap ℕ FlowTip}
    (hm : ∀ e ∈ m.entries, e.2.op ∈ dag.operators) (hnd : (m.entries.map Prod.snd).Nodup)
    (hagain : ∀ v ∈ dag.operators, ∀ inner ∈ (dag.op v).innerDag,
      let ordered := (canonical inner).setInputs
        (orderedInputs (canonical inner) (dag.op v).operator.cls.numInPorts)
      canonicalizeInner ordered = some ordered) :
    InnerCanonical canonicalizeInner { Optimize.renumbered dag' ids with inputs := m } id := by
  have hsink := hdone.singleSink h
  have hmem : ∀ v ∈ (Optimize.renumbered dag' ids).operators, v ∈ dag.operators :=
    fun v hv => hdone.operators ▸ mem_sortBy.mp hv
  refine ⟨?_, fun v hv inner hsome => ?_, fun v hv inner hsome => ?_, fun v hv inner hsome i hi => ?_,
    fun f hf inner hsome => ?_⟩
  · refine hsink.of_perm (g := id) (sortBy_perm _ _) ?_ (fun _ => ⟨rfl, rfl⟩) (fun _ _ _ _ heq => heq) (fun e he => ?_)
      hnd rfl
    · rw [map_id]
      exact sortBy_perm _ _
    · exact hdone.operators ▸ hm e he
  · obtain ⟨inner0, hinner0, -, rfl⟩ := hdone.exists_inner (hmem v hv) hsome
    exact hagain v (hmem v hv) inner0 hinner0
  · obtain ⟨inner0, hinner0, hk, rfl⟩ := hdone.exists_inner (hmem v hv) hsome
    have hnumbered := (h.numbered v (hmem v hv) inner0 hinner0).ordered
    rwa [← hk] at hnumbered ⊢
  · obtain ⟨inner0, hinner0, hk, rfl⟩ := hdone.exists_inner (hmem v hv) hsome
    obtain ⟨f, hf, htgt⟩ := hdone.fed h (hmem v hv) hinner0 (hi.trans_eq hk)
    exact ⟨f, mem_sortBy.mpr hf, htgt⟩
  · have hf : f ∈ dag'.flows := mem_sortBy.mp hf
    have hv := hmem _ (mem_sortBy.mpr (hsink.closed.target f hf))
    obtain ⟨inner0, hinner0, hk, rfl⟩ := hdone.exists_inner hv hsome
    exact (hdone.port h hf hinner0).trans_eq hk.symm

end

/-- A plan that has its ids and orders already is not changed. -/
theorem renumbered_renumbered {c : OpDag Inner} (hclosed : dag.Closed)
    (hperm : ids.Perm dag.operators) (hops : c.operators = (renumbered dag ids).operators)
    (hop : c.op = (renumbered dag ids).op) (hflows : c.flows.Perm (renumbered dag ids).flows) (hins : c.inputs = m)
    (houts : c.outputs = dag.outputs) : renumbered c ids = { renumbered dag ids with inputs := m } := by
  have hcperm : c.operators.Perm dag.operators := hops ▸ sortBy_perm _ _
  refine PortedDag.ext ?_ ?_ ?_ hins houts
  · show (renumbered c ids).operators = (renumbered dag ids).operators
    rw [operators_renumbered (hperm.trans hcperm.symm) (hcperm.nodup_iff.mpr hclosed.nodup),
      operators_renumbered hperm hclosed.nodup]
  · show (renumbered c ids).op = (renumbered dag ids).op
    funext v
    by_cases hv : v ∈ c.operators
    · rw [op_renumbered hv, hop, op_renumbered (hcperm.mem_iff.mp hv)]
    · exact (if_neg hv).trans (congrFun hop v)
  · exact sortBy_congr (distinct_flowKey hclosed fun u hu v _ heq =>
      (idxOf_inj (hperm.mem_iff.mpr hu)).mp heq) (hflows.trans (sortBy_perm _ _))

/-- **Canonical forms are kept**, whatever their inputs are. -/
theorem canonicalize_canonicalForm (hsort : IsTopologicalSort topSort) (n : ℕ) (dag : NestedDag n)
    (h : Canonicalizable n dag) (hm : ∀ e ∈ m.entries, e.2.op ∈ dag.operators)
    (hnd : (m.entries.map Prod.snd).Nodup) :
    canonicalize topSort n ((canonicalForm topSort n dag).setInputs m) =
      some ((canonicalForm topSort n dag).setInputs m) := by
  induction n generalizing m with
  | zero => cases dag
  | succ n ih =>
    have hlevel := h.innerCanonical (exists_canonicalForm hsort n)
    obtain ⟨dag', label, hrun⟩ := h.level hsort
    have hform := hrun.form
    obtain ⟨-, hdone, hsink, hlab, -⟩ := hrun
    generalize hids : sortBy label dag'.operators = ids at hform
    have hperm : ids.Perm dag'.operators := hids ▸ sortBy_perm label dag'.operators
    have hagain : ∀ v ∈ PortedDag.operators dag, ∀ inner ∈ (PortedDag.op dag v).innerDag,
        let ordered := (canonicalForm topSort n inner).setInputs (orderedInputs
          (canonicalForm topSort n inner) (PortedDag.op dag v).operator.cls.numInPorts)
        canonicalize topSort n ordered = some ordered := by
      intro v hv inner hinner
      have hcanonicalizable := (h.2 v hv inner hinner).1
      refine ih inner hcanonicalizable (fun e he => ?_) ?_
      · obtain ⟨i, hi⟩ := exists_of_mem_orderedInputs he
        rw [(exists_canonicalForm hsort n inner hcanonicalizable).2.inputs] at hi
        exact hcanonicalizable.tip (i, e.2) hi
      · have hnd := (hlevel.numbered v hv inner hinner).ordered.nodup
        rwa [inputs_setInputs] at hnd
    have hcanon := hlevel.renumbered hdone ids hm hnd hagain
    obtain ⟨c, label', -, hdone', -, hlab', -, hres⟩ := hcanon.run hsort
    have hmem : ∀ v ∈ (renumbered dag' ids).operators, v ∈ PortedDag.operators dag :=
      fun v hv => hdone.operators ▸ mem_sortBy.mp hv
    obtain ⟨hop, hflows⟩ := hdone'.eq_self hcanon.singleSink.closed hcanon.port (by
      intro v hv inner hsome
      obtain ⟨inner0, hinner0, hk, rfl⟩ := hdone.exists_inner (hmem v hv) hsome
      have hnumbered := hlevel.numbered v (hmem v hv) inner0 hinner0
      rw [hk, hnumbered.portOrder_ordered, hnumbered.orderedInputs_ordered, setInputs_setInputs]
      exact ⟨rfl, rfl⟩)
    -- the graph is the one that has been labelled before
    have hgraph : SameGraph dag' c id := by
      refine ⟨fun _ _ _ _ heq => heq, ?_, ?_⟩
      · rw [map_id, hdone'.operators]
        exact sortBy_perm _ _
      · exact hflows.trans ((sortBy_perm _ _).trans (List.Perm.of_eq (map_id _).symm))
    have hids' : sortBy label' c.operators = ids := by
      rw [← hids, hgraph.sortBy_label hsort hsink hlab hlab', map_id]
    rw [hids', renumbered_renumbered hsink.closed hperm hdone'.operators hop hflows hdone'.inputs
      hdone'.outputs] at hres
    rw [hform]
    exact hres

end

section

variable {topSort : TopologicalSort ℕ} {n : ℕ}

/-! ### Isomorphic plans -/

theorem SameVia.matching {same : NestedDag n → NestedDag n → Prop} {c c' : OpDag (NestedDag n)} {σ ρ : ℕ → ℕ} {k : ℕ}
    (h : SameVia same σ c c' ρ) (hports : ((range k).map σ).Perm (range k)) :
    Numbered.Matching (n := n + 1) c c' k σ ρ :=
  ⟨fun u hu => congrArg DagOperator.id (h.operator u hu), hports, h.inputs⟩

theorem SameUpTo.matching {c c' : NestedDag n} {σ : ℕ → ℕ} {k : ℕ} (h : SameUpTo n σ c c')
    (hports : ((range k).map σ).Perm (range k)) :
    ∃ ρ, Numbered.Matching c c' k σ ρ := by
  cases n with
  | zero => cases c
  | succ n =>
    obtain ⟨ρ, hsame⟩ := h
    exact ⟨ρ, hsame.matching hports⟩

/-- Equal inner DAGs stay equal when the ports are put in order. -/
theorem SameUpTo.ordered {c c' : NestedDag n} {σ : ℕ → ℕ} {k : ℕ} (h : SameUpTo n σ c c')
    (hnumbered : Numbered c k) (hports : ((range k).map σ).Perm (range k)) :
    SameUpTo n id (c.setInputs (orderedInputs c k)) (c'.setInputs (orderedInputs c' k)) := by
  cases n with
  | zero => cases c
  | succ n =>
    obtain ⟨ρ, hsame⟩ := h
    exact ⟨ρ, hsame.injective, hsame.operators, hsame.operator, hsame.innerDag, hsame.flows,
      List.Perm.of_eq ((hsame.matching hports).orderedInputs hnumbered), hsame.outputs⟩

namespace IsoVia

variable {innerIso : (ℕ → ℕ) → NestedDag n → NestedDag n → Prop} {π ρ : ℕ → ℕ} {σ : ℕ → ℕ → ℕ}
  {dag dag' : OpDag (NestedDag n)} {canonical : NestedDag n → NestedDag n}

section

variable (hvia : IsoVia innerIso π dag dag' ρ σ)

include hvia

section

variable {v : ℕ} (hv : v ∈ dag.operators)

include hv

theorem mem_operators : ρ v ∈ dag'.operators := hvia.operators.mem_iff.mpr (mem_map_of_mem hv)

theorem numInPorts : (dag'.op (ρ v)).operator.cls.numInPorts = (dag.op v).operator.cls.numInPorts := by
  rw [hvia.operator v hv]

theorem innerDag_none (hnone : (dag.op v).innerDag = none) : (dag'.op (ρ v)).innerDag = none := by
  have hrel := hvia.innerDag v hv
  rw [hnone] at hrel
  cases hinner' : (dag'.op (ρ v)).innerDag with
  | none => rfl
  | some inner' => rw [hinner'] at hrel; cases hrel

theorem exists_innerDag {inner : NestedDag n} (hinner : (dag.op v).innerDag = some inner) :
    ∃ inner', (dag'.op (ρ v)).innerDag = some inner' ∧ innerIso (σ v) inner inner' := by
  have hrel := hvia.innerDag v hv
  rw [hinner] at hrel
  cases hinner' : (dag'.op (ρ v)).innerDag with
  | none => rw [hinner'] at hrel; cases hrel
  | some inner' =>
    rw [hinner'] at hrel
    cases hrel with
    | some hiso => exact ⟨inner', rfl, hiso⟩

end

/-- The ports get the same numbers if the inner DAGs have the same canonical forms. -/
theorem newPort_eq (hsame : ∀ v ∈ dag.operators, ∀ inner, (dag.op v).innerDag = some inner →
      ∃ inner', (dag'.op (ρ v)).innerDag = some inner' ∧ SameUpTo n (σ v) (canonical inner) (canonical inner'))
    {canonicalizeInner : NestedDag n → Option (NestedDag n)}
    (h : InnerCanonical canonicalizeInner dag canonical) {f : Flow} (hf : f ∈ dag.flows) :
    newPort dag' canonical (ρ f.target.op) (σ f.target.op f.target.port) =
      newPort dag canonical f.target.op f.target.port := by
  have hv := h.singleSink.closed.target f hf
  cases hsome : (dag.op f.target.op).innerDag with
  | none => rw [newPort_of_none hsome, newPort_of_none (hvia.innerDag_none hv hsome), hvia.kept _ hv hsome]
  | some inner =>
    obtain ⟨inner', hinner', hsame⟩ := hsame _ hv inner hsome
    obtain ⟨ρ', hmatch⟩ := hsame.matching (hvia.renumbered _ hv inner hsome)
    rw [newPort_of_some hsome, newPort_of_some hinner', hvia.numInPorts hv]
    exact hmatch.newPort (h.numbered _ hv inner hsome) (h.port f hf inner hsome)

/-- The graphs are the same when the ports are in order. -/
theorem sameGraph (hport : ∀ f ∈ dag.flows, newPort dag' canonical (ρ f.target.op) (σ f.target.op f.target.port) =
      newPort dag canonical f.target.op f.target.port)
    {dag1 dag1' : OpDag (NestedDag n)} (hclosed : dag.Closed) (hclosed' : dag'.Closed)
    (hdone : OrderedUpTo dag canonical dag.operators dag1)
    (hdone' : OrderedUpTo dag' canonical dag'.operators dag1') : SameGraph dag1 dag1' ρ := by
  refine ⟨?_, ?_, ?_⟩
  · rw [hdone.operators]
    exact hvia.injective
  · rw [hdone.operators, hdone'.operators]
    exact hvia.operators
  · refine (hdone'.flows_perm hclosed').trans ((hvia.flows.map _).trans ?_)
    refine List.Perm.trans (List.Perm.of_eq ?_) ((hdone.flows_perm hclosed).symm.map _)
    rw [map_map, map_map]
    refine map_congr_left fun f hf => ?_
    exact congrArg (fun port => (⟨f.source.rename ρ, ⟨ρ f.target.op, port⟩⟩ : Flow)) (hport f hf)

end

end IsoVia

/-- Flows are sorted alike if the operators have the same numbers. -/
theorem SameGraph.flows_renumbered {dag dag' : OpDag Inner} {ρ : ℕ → ℕ}
    (h : SameGraph dag dag' ρ) (hclosed : dag.Closed) {ids ids' : List ℕ} (hperm : ids.Perm dag.operators)
    (hid : ∀ v ∈ dag.operators, ids'.idxOf (ρ v) = ids.idxOf v) :
    (renumbered dag' ids').flows = (renumbered dag ids).flows.map (Flow.rename ρ) := by
  refine sortBy_map (distinct_flowKey hclosed fun u hu v _ heq =>
    (idxOf_inj (hperm.mem_iff.mpr hu)).mp heq) h.flows fun f hf => ?_
  have hs := hid _ (hclosed.source f hf)
  have ht := hid _ (hclosed.target f hf)
  simp only [flowKey, tipKey, Flow.rename, FlowTip.rename, hs, ht]

/-- **Isomorphic plans have the same canonical form.** -/
theorem sameUpTo_canonicalForm (hsort : IsTopologicalSort topSort) (n : ℕ) (π : ℕ → ℕ)
    (dag dag' : NestedDag n) (h : Canonicalizable n dag) (h' : Canonicalizable n dag') (hiso : IsoUpTo n π dag dag') :
    SameUpTo n π (canonicalForm topSort n dag) (canonicalForm topSort n dag') := by
  induction n generalizing π with
  | zero => cases dag
  | succ n ih =>
    obtain ⟨ρ, σ, hvia⟩ := hiso
    have hlevel := h.innerCanonical (exists_canonicalForm hsort n)
    obtain ⟨dag1, label, hrun⟩ := h.level hsort
    obtain ⟨dag1', label', hrun'⟩ := h'.level hsort
    have hform := hrun.form
    have hform' := hrun'.form
    obtain ⟨-, hdone, hsink, hlab, -⟩ := hrun
    obtain ⟨-, hdone', hsink', hlab', -⟩ := hrun'
    have hinner : ∀ v ∈ PortedDag.operators dag, ∀ inner, (PortedDag.op dag v).innerDag = some inner →
        ∃ inner', (PortedDag.op dag' (ρ v)).innerDag = some inner' ∧
          SameUpTo n (σ v) (canonicalForm topSort n inner) (canonicalForm topSort n inner') := by
      intro v hv inner hinner
      obtain ⟨inner', hinner', hiso⟩ := hvia.exists_innerDag hv hinner
      exact ⟨inner', hinner', ih (σ v) inner inner' (h.2 v hv inner hinner).1
        (h'.2 _ (hvia.mem_operators hv) inner' hinner').1 hiso⟩
    have hgraph := hvia.sameGraph (fun f hf => hvia.newPort_eq hinner hlevel hf) h.1.closed h'.1.closed
      hdone hdone'
    -- equal graphs have equal labels, hence equal ids
    rw [hgraph.sortBy_label hsort hsink hlab hlab'] at hform'
    generalize hids : sortBy label dag1.operators = ids at hform hform'
    have hperm : ids.Perm dag1.operators := hids ▸ sortBy_perm label dag1.operators
    have hperm' : (ids.map ρ).Perm dag1'.operators := (hperm.map ρ).trans hgraph.operators.symm
    have hid : ∀ v ∈ dag1.operators, (ids.map ρ).idxOf (ρ v) = ids.idxOf v := fun v hv =>
      idxOf_map_of_injOn fun u hu heq => hgraph.injective u (hperm.mem_iff.mp hu) v hv heq
    have hop : ∀ v ∈ PortedDag.operators dag, (renumbered dag1' (ids.map ρ)).op (ρ v) =
        ⟨{ (PortedDag.op dag' (ρ v)).operator with id := ids.idxOf v },
          (orderedVertex dag' (canonicalForm topSort n) (ρ v)).innerDag⟩ := by
      intro v hv
      rw [hdone'.op_renumbered (hvia.mem_operators hv), hid v (hdone.operators ▸ hv)]
    have hmem : ∀ v ∈ (renumbered dag1 ids).operators, v ∈ PortedDag.operators dag :=
      fun v hv => hdone.operators ▸ mem_sortBy.mp hv
    rw [hform, hform']
    refine ⟨ρ, ⟨?_, ?_, ?_, ?_, ?_, ?_, ?_⟩⟩
    · exact fun u hu v hv => hvia.injective u (hmem u hu) v (hmem v hv)
    · rw [operators_renumbered hperm hsink.closed.nodup, operators_renumbered hperm' hsink'.closed.nodup]
    · intro v hv
      rw [hdone.op_renumbered (hmem v hv), hop v (hmem v hv), hvia.operator v (hmem v hv)]
    · intro v hv
      have hv := hmem v hv
      rw [hdone.op_renumbered hv, hop v hv]
      dsimp only [orderedVertex]
      rw [hvia.numInPorts hv]
      cases hsome : (PortedDag.op dag v).innerDag with
      | none => rw [hvia.innerDag_none hv hsome]; exact Option.Rel.none
      | some inner =>
        obtain ⟨inner', hinner', hsame⟩ := hinner v hv inner hsome
        rw [hinner']
        exact Option.Rel.some (hsame.ordered (hlevel.numbered v hv inner hsome)
          (hvia.renumbered v hv inner hsome))
    · exact hgraph.flows_renumbered hsink.closed hperm hid
    · show dag1'.inputs.entries.Perm (dag1.inputs.entries.map _)
      rw [hdone.inputs, hdone'.inputs]
      exact hvia.inputs
    · show dag1'.outputs.entries = dag1.outputs.entries.map _
      rw [hdone.outputs, hdone'.outputs]
      exact hvia.outputs

end

/-! ### The main result -/

/-- **Canonical form.**  The pass succeeds; the path labels are distinct on every level, so that the ids are
    `0`, `1`, …; a second run changes nothing; the result is isomorphic to the plan; and isomorphic plans
    have the same result. -/
theorem canonicalize_canonical (topSort : TopologicalSort ℕ)
    (hsort : IsTopologicalSort topSort) (n : ℕ) (dag : NestedDag n) (h : Canonicalizable n dag) :
    ∃ c, canonicalize topSort n dag = some c ∧ DistinctLabels topSort n dag ∧
      ContiguousIds n c ∧ canonicalize topSort n c = some c ∧ Isomorphic n dag c ∧
      ∀ dag', Canonicalizable n dag' → Isomorphic n dag dag' →
        ∃ c', canonicalize topSort n dag' = some c' ∧ SameCanonical n c c' := by
  obtain ⟨hres, hform⟩ := exists_canonicalForm hsort n dag h
  have hagain := canonicalize_canonicalForm hsort n dag h h.tip h.nodup_tips
  have hins : (canonicalForm topSort n dag).setInputs dag.inputs =
      canonicalForm topSort n dag := by
    rw [← hform.inputs, setInputs_inputs]
  rw [hins] at hagain
  refine ⟨canonicalForm topSort n dag, hres, distinctLabels hsort n dag h,
    contiguousIds_canonicalForm hsort n dag h, hagain, isomorphic_canonicalForm hsort n dag h, ?_⟩
  intro dag' h' hiso
  exact ⟨canonicalForm topSort n dag', (exists_canonicalForm hsort n dag' h').1,
    sameUpTo_canonicalForm hsort n id dag dag' h h' hiso⟩

/-- Two lookups that a `Zip` reads, with the inputs crossed. -/
def zipLookups : NestedDag 1 where
  operators := [0, 1, 2]
  op v := ⟨⟨v, none, "", if v = 2 then .zip 2 else .parameterLookup⟩, none⟩
  flows := [⟨⟨0, 0⟩, ⟨2, 0⟩⟩, ⟨⟨1, 0⟩, ⟨2, 1⟩⟩]
  inputs := ((∅ : MultiMap ℕ FlowTip).emplace 0 ⟨1, 0⟩).emplace 1 ⟨0, 0⟩
  outputs := (∅ : Map ℕ FlowTip).assign 0 ⟨2, 0⟩

/-- Workers that run `zipLookups` on two constants. -/
def workersPlan : NestedDag 2 where
  operators := [0, 1, 2]
  op v := ⟨⟨v + 4, none, "", if v = 2 then .concurrentExecute 2 1 else .constantTuple ["1"]⟩,
    if v = 2 then some zipLookups else none⟩
  flows := [⟨⟨0, 0⟩, ⟨2, 0⟩⟩, ⟨⟨1, 0⟩, ⟨2, 1⟩⟩]
  inputs := ∅
  outputs := (∅ : Map ℕ FlowTip).assign 0 ⟨2, 0⟩

theorem singleSink_of_two {op : ℕ → Vertex Inner} {inputs : MultiMap ℕ FlowTip}
    (hinp : ∀ e ∈ inputs.entries, e.2.op ∈ [0, 1, 2]) (hnd : (inputs.entries.map Prod.snd).Nodup) :
    SingleSink ⟨[0, 1, 2], op, [⟨⟨0, 0⟩, ⟨2, 0⟩⟩, ⟨⟨1, 0⟩, ⟨2, 1⟩⟩], inputs,
      (∅ : Map ℕ FlowTip).assign 0 ⟨2, 0⟩⟩ := by
  refine ⟨⟨by simp, by simp, by simp, hinp, by simp [Map.mem_assign]⟩, ?_, ⟨2, by simp, ?_⟩, by simp, hnd⟩
  · have hranked : Graphs.Ranked [(0, 2), (1, 2)] fun v => v := by simp [Graphs.Ranked]
    exact hranked.acyclic
  · simp [Dag.outFlows, PortedDag.graph]

theorem canonicalizable_workersPlan : Canonicalizable 2 workersPlan := by
  have hinner : Canonicalizable 1 zipLookups := by
    refine ⟨singleSink_of_two (by decide) (by decide), fun v _ inner hsome => ?_⟩
    simp [zipLookups] at hsome
  refine ⟨singleSink_of_two (by simp) (by simp), fun v hv inner hsome => ?_⟩
  have hv : v = 2 := by
    by_contra hne
    simp [workersPlan, hne] at hsome
  subst hv
  obtain rfl : zipLookups = inner := Option.some.inj hsome
  refine ⟨hinner, ⟨fun i hi => ?_, ?_, fun i => ?_⟩⟩
  · match i, hi with
    | 0, _ => exact ⟨_, mem_cons_self, rfl⟩
    | 1, _ => exact ⟨_, mem_cons_of_mem _ mem_cons_self, rfl⟩
  · simp [workersPlan, OperatorClass.numInPorts]
  · have hkeys : (NestedDag.inputs zipLookups).keys = [0, 1] := by decide
    show i ∈ (NestedDag.inputs zipLookups).keys ↔ i < 2
    rw [hkeys, mem_cons, mem_singleton]
    omega

/-- The pass has canonical forms of plans with two levels. -/
theorem canonicalize_canonical_workersPlan : IsTopologicalSort (sinksFirst (V := ℕ)) ∧
    Canonicalizable 2 workersPlan ∧ ∃ c, canonicalize sinksFirst 2 workersPlan = some c ∧
      DistinctLabels sinksFirst 2 workersPlan ∧ ContiguousIds 2 c ∧ canonicalize sinksFirst 2 c = some c ∧
      Isomorphic 2 workersPlan c :=
  let ⟨c, hres, hlabs, hids, hagain, hiso, _⟩ := canonicalize_canonical sinksFirst
    isTopologicalSort_sinksFirst 2 workersPlan canonicalizable_workersPlan
  ⟨isTopologicalSort_sinksFirst, canonicalizable_workersPlan, c, hres, hlabs, hids, hagain, hiso⟩

end Jitq.Optimize

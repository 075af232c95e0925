import Jitq.Dag.Nested
import Jitq.Lib.SortBy
import Jitq.Optimize.PathLabels
import Mathlib.Data.Prod.Lex

namespace Jitq.Optimize

open SortedMap Partial SortBy Graphs List

/-! # The pass `Canonicalize`

Gives equal ids and an equal order to equal plans. -/

/-! ### The inputs of inner DAGs -/

/-- An input of an inner DAG: the tip that feeds it and its consumers. -/
structure InnerInput where
  source : FlowTip
  consumers : List FlowTip

/-- `std::tie(i.op->id, i.port)`. -/
def tipKey (idOf : ℕ → ℕ) (tip : FlowTip) : ℕ ×ₗ ℕ := toLex (idOf tip.op, tip.port)

namespace InnerInput

/-- Orders the consumers of an input by (ID, port). -/
def sortConsumers (idOf : ℕ → ℕ) (input : InnerInput) : InnerInput :=
  ⟨input.source, sortBy (tipKey idOf) input.consumers⟩

/-- (ID, port) of the first consumer. -/
def key (idOf : ℕ → ℕ) (input : InnerInput) : ℕ ×ₗ ℕ := tipKey idOf (input.consumers.headD ⟨0, 0⟩)

end InnerInput

section

variable {n : ℕ}

/-- Canonicalizes the inner DAG of an operator and brings its inputs and the in-flows of the operator in
    order. -/
def orderInputs (canonicalizeInner : NestedDag n → Option (NestedDag n))
    (dag : OpDag (NestedDag n)) (v : ℕ) : Option (OpDag (NestedDag n)) :=
  match (dag.op v).innerDag with
  | none => some dag
  | some inner => do
    let inner ← canonicalizeInner inner
    let tempInputs ← (range (dag.op v).operator.cls.numInPorts).mapM fun i =>
      (dag.graph.inFlowOn v i).map fun f => InnerInput.mk f.source (inner.inputs.equalRange i)
    let sorted := tempInputs.map (InnerInput.sortConsumers inner.idOf)
    -- the comparison of two inputs reads their first consumers
    guard (sorted.length ≤ 1 ∨ ∀ input ∈ sorted, input.consumers ≠ [])
    let sorted := (sortBy (InnerInput.key inner.idOf) sorted).zipIdx
    let dag' ← sorted.foldlM (fun dag p => dag.addFlow p.1.source ⟨v, p.2⟩)
      { dag with flows := dag.flows.filter fun f => f.target.op ≠ v }
    let inputs := sorted.flatMap fun p => p.1.consumers.map fun tip => (p.2, tip)
    let inner ← inputs.foldlM (fun inner e => inner.addInput e.1 e.2) (inner.setInputs ∅)
    some { dag' with op := Function.update dag.op v ⟨(dag.op v).operator, some inner⟩ }

end

/-! ### New ids -/

section

variable {Inner : Type}

/-- The combination of both path labels. -/
def combinedLabel (incoming outgoing : List (ℕ × String)) (v : ℕ) : String :=
  (incoming.lookup v).getD "" ++ "_" ++ (outgoing.lookup v).getD ""

/-- The operators in the order of their labels, which have to be distinct. -/
def vertexIds (dag : OpDag Inner) (incoming outgoing : List (ℕ × String)) : Option (List ℕ) := do
  let sortedLabels := (dag.operators.map fun v => (combinedLabel incoming outgoing v, v)).foldl
    (fun m e => m.emplace e.1 e.2) (∅ : Map String ℕ)
  guard (sortedLabels.entries.length = incoming.length)
  guard (sortedLabels.entries.length = outgoing.length)
  some (sortedLabels.entries.map Prod.snd)

/-- `std::tie(f.source.op->id, f.source.port, f.target.op->id, f.target.port)`. -/
def flowKey (idOf : ℕ → ℕ) (f : Flow) : (ℕ ×ₗ ℕ) ×ₗ (ℕ ×ₗ ℕ) := toLex (tipKey idOf f.source, tipKey idOf f.target)

/-- Gives the operators their positions as ids and puts operators and flows in order.  The operators are
    moved to another DAG and back, after which they have these ids again. -/
def renumber (dag : OpDag Inner) (ids : List ℕ) : Option (OpDag Inner) := do
  let newId := fun v => ids.idxOf v
  let op := fun v => if v ∈ dag.operators then
    ⟨{ (dag.op v).operator with id := newId v }, (dag.op v).innerDag⟩ else dag.op v
  let tempOps := sortBy newId dag.operators
  let tempFlows := sortBy (flowKey newId) dag.flows
  let dag' ← tempFlows.foldlM (fun dag f => dag.addFlow f.source f.target) ⟨tempOps, op, [], ∅, ∅⟩
  let dag' ← dag.inputs.entries.foldlM (fun dag e => dag.addInput e.1 e.2) dag'
  dag.outputs.entries.foldlM (fun dag e => dag.setOutput e.1 e.2) dag'

/-- Labels the operators and numbers them in the order of the labels.  `topSort` is
    `boost::topological_sort` of a graph, given by its vertices and edges. -/
def relabel (topSort : TopologicalSort ℕ) (dag : OpDag Inner) :
    Option (OpDag Inner) := do
  let order := topSort dag.operators dag.edges
  let outgoing ← outgoingPathLabel dag order
  let incoming ← incomingPathLabel dag order.reverse
  let ids ← vertexIds dag incoming outgoing
  renumber dag ids

end

/-! ### The pass -/

/-- `Canonicalize::Run`. -/
def canonicalize (topSort : TopologicalSort ℕ) : (n : ℕ) → NestedDag n → Option (NestedDag n)
  | 0, dag => nomatch dag
  | n + 1, (dag : OpDag (NestedDag n)) => do
    let dag ← dag.operators.foldlM (orderInputs (canonicalize topSort n)) dag
    relabel topSort dag

/-! ### Numbering by labels -/

section

variable {Inner : Type}

/-- One level of the plans that are canonicalized: acyclic, with one sink, and no port with two in-flows
    or inputs. -/
structure SingleSink (dag : OpDag Inner) : Prop where
  closed : dag.Closed
  acyclic : dag.Acyclic
  sink : ∃ sink ∈ dag.operators, ∀ v ∈ dag.operators, dag.graph.outFlows v = [] ↔ v = sink
  target : (dag.flows.map Flow.target).Nodup
  input : (dag.inputs.entries.map Prod.snd).Nodup

/-- `label` is the combination of the path labels. -/
structure IsCombinedLabel (dag : OpDag Inner) (label : ℕ → String) : Prop where
  labels : ∃ incoming outgoing, IsLabeling dag.graph.inFlows (fun f => f.source.op) dag.operators incoming ∧
    IsLabeling dag.graph.outFlows (fun f => f.target.op) dag.operators outgoing ∧
    ∀ v ∈ dag.operators, label v = incoming v ++ "_" ++ outgoing v

/-- The plan with the operators in the order of `ids`. -/
def renumbered (dag : OpDag Inner) (ids : List ℕ) : OpDag Inner where
  operators := sortBy (fun v => ids.idxOf v) dag.operators
  op v := if v ∈ dag.operators then
    ⟨{ (dag.op v).operator with id := ids.idxOf v }, (dag.op v).innerDag⟩ else dag.op v
  flows := sortBy (flowKey fun v => ids.idxOf v) dag.flows
  inputs := dag.inputs
  outputs := dag.outputs

variable {dag : OpDag Inner}

theorem renumber_eq (hclosed : dag.Closed) (hacyc : dag.Acyclic)
    (ids : List ℕ) : renumber dag ids = some (renumbered dag ids) := by
  have hflows := sortBy_perm (flowKey fun v => ids.idxOf v) dag.flows
  unfold renumber renumbered
  dsimp only
  rw [PortedDag.foldlM_addFlow, Option.bind_eq_bind, Option.bind_some, PortedDag.foldlM_addInput,
    Option.bind_some, PortedDag.foldlM_setOutput]
  · congr 2
    · exact MultiMap.ext (MultiMap.entries_foldl_emplace dag.inputs.sorted)
    · exact Map.ext (Map.entries_foldl_assign dag.outputs.sorted)
  · exact fun e he => mem_sortBy.mpr (hclosed.output e he)
  · exact fun e he => mem_sortBy.mpr (hclosed.input e he)
  · exact Graphs.Acyclic.mono hacyc fun e he => (hflows.map _).mem_iff.mp he
  · intro f hf
    rw [mem_sortBy] at hf
    exact ⟨mem_sortBy.mpr (hclosed.source f hf), mem_sortBy.mpr (hclosed.target f hf)⟩

theorem vertexIds_eq {incoming outgoing : List (ℕ × String)}
    (hnd : dag.operators.Nodup) (hlab : Distinct (combinedLabel incoming outgoing) dag.operators)
    (hincoming : incoming.length = dag.operators.length) (houtgoing : outgoing.length = dag.operators.length) :
    vertexIds dag incoming outgoing = some (sortBy (combinedLabel incoming outgoing) dag.operators) := by
  generalize hlabs : combinedLabel incoming outgoing = label at hlab
  generalize hents : (dag.operators.map fun v => (label v, v)) = entries
  have hkeys : (entries.map Prod.fst).Nodup := by
    rw [← hents, map_map]
    exact List.Nodup.map_on (fun u hu v hv heq => hlab u hu v hv heq) hnd
  have hsorted : (entries.foldl (fun m e => m.emplace e.1 e.2) (∅ : Map String ℕ)).entries =
      (sortBy label dag.operators).map fun v => (label v, v) := by
    have hperm : (entries.foldl (fun m e => m.emplace e.1 e.2) (∅ : Map String ℕ)).entries.Perm entries :=
      Map.entries_foldl_emplace_perm (by simpa using hkeys)
    have hdist : Distinct Prod.fst entries := fun a ha b hb heq =>
      inj_on_of_nodup_map hkeys ha hb heq
    have hmap : sortBy Prod.fst entries = (sortBy label dag.operators).map fun v => (label v, v) :=
      sortBy_map hlab (List.Perm.of_eq hents.symm) fun v _ => rfl
    rw [← hmap]
    exact eq_sortBy hdist hperm ((Map.sorted _).imp le_of_lt)
  unfold vertexIds
  dsimp only
  rw [hlabs, hents, hsorted]
  simp [hincoming, houtgoing, Function.comp_def, guard]

/-- If the numbers of labels and operators agree, then the labels are distinct. -/
theorem distinct_of_vertexIds {incoming outgoing : List (ℕ × String)} {ids : List ℕ}
    (houtgoing : outgoing.length = dag.operators.length)
    (h : vertexIds dag incoming outgoing = some ids) :
    Distinct (combinedLabel incoming outgoing) dag.operators := by
  obtain ⟨-, -, h⟩ := Option.bind_eq_some_iff.mp h
  obtain ⟨_, hguard, -⟩ := Option.bind_eq_some_iff.mp h
  have hlen := guard_eq_some.mp hguard
  have hsub := Map.entries_foldl_emplace_subperm (∅ : Map String ℕ)
    (dag.operators.map fun v => (combinedLabel incoming outgoing v, v))
  rw [Map.entries_empty, nil_append] at hsub
  have hperm := hsub.perm_of_length_le (by rw [hlen, houtgoing, length_map])
  have hkeys := (hperm.map Prod.fst).nodup_iff.mp
    (pairwise_map.mpr ((Map.sorted _).imp fun hlt => hlt.ne))
  rw [map_map] at hkeys
  exact fun u hu v hv heq => inj_on_of_nodup_map hkeys hu hv heq

/-! ### The order of the visits -/

theorem NextFirst.idxOf_lt {flowsOf : ℕ → List Flow} {next : Flow → ℕ} {order : List ℕ}
    (h : NextFirst flowsOf next order) (hnd : order.Nodup) {v : ℕ} (hv : v ∈ order) {f : Flow}
    (hf : f ∈ flowsOf v) : order.idxOf (next f) < order.idxOf v := by
  obtain ⟨done, rest, rfl⟩ := append_of_mem hv
  have hdone := h done v rest rfl f hf
  have hnot : v ∉ done := fun hmem => (nodup_append.mp hnd).2.2 v hmem v mem_cons_self rfl
  rw [idxOf_append_of_mem hdone, idxOf_append_of_notMem hnot]
  exact (idxOf_lt_length_of_mem hdone).trans_le (Nat.le_add_right _ _)

section

variable {topSort : TopologicalSort ℕ} {dag : OpDag Inner}

section

variable (hsort : IsTopologicalSort topSort) (hclosed : dag.Closed) (hacyc : dag.Acyclic)

include hsort hclosed hacyc

/-- The order of the visits on a DAG. -/
theorem visitOrder : (topSort dag.operators dag.edges).Perm dag.operators ∧
      ∀ done v rest, topSort dag.operators dag.edges = done ++ v :: rest →
        ∀ e ∈ dag.edges, e.1 = v → e.2 ∈ done := by
  refine hsort dag.operators dag.edges hclosed.nodup (fun e he => ?_) hacyc
  obtain ⟨f, hf, rfl⟩ := mem_map.mp he
  exact ⟨hclosed.source f hf, hclosed.target f hf⟩

theorem nextFirst_outgoing :
    NextFirst dag.graph.outFlows (fun f => f.target.op) (topSort dag.operators dag.edges) := by
  intro done v rest horder f hf
  obtain ⟨hflow, hsrc⟩ := Dag.mem_outFlows.mp hf
  exact (visitOrder hsort hclosed hacyc).2 done v rest horder (f.source.op, f.target.op) (mem_map_of_mem hflow) hsrc

theorem nextFirst_incoming : NextFirst dag.graph.inFlows (fun f => f.source.op)
      (topSort dag.operators dag.edges).reverse := by
  have hperm := (visitOrder hsort hclosed hacyc).1
  intro done v rest hreverse f hf
  obtain ⟨hflow, rfl⟩ := Dag.mem_inFlows.mp hf
  have horder : topSort dag.operators dag.edges =
      rest.reverse ++ f.target.op :: done.reverse := by
    rw [← reverse_reverse (topSort _ _), hreverse]
    simp
  have hnd := hperm.nodup_iff.mpr hclosed.nodup
  have hsrc : f.source.op ∈ topSort dag.operators dag.edges := hperm.mem_iff.mpr (hclosed.source f hflow)
  have hlt := (nextFirst_outgoing hsort hclosed hacyc).idxOf_lt hnd hsrc (Dag.mem_outFlows.mpr ⟨hflow, rfl⟩)
  rw [horder] at hnd hsrc hlt
  have hnot : f.target.op ∉ rest.reverse := fun hmem => (nodup_append.mp hnd).2.2 _ hmem _ mem_cons_self rfl
  rw [idxOf_append_of_notMem hnot, idxOf_cons_self] at hlt
  rcases mem_append.mp hsrc with hmem | hmem
  · rw [idxOf_append_of_mem hmem] at hlt
    exact absurd (idxOf_lt_length_of_mem hmem) (by omega)
  · rcases mem_cons.mp hmem with heq | hmem
    · rw [heq, idxOf_append_of_notMem hnot, idxOf_cons_self] at hlt
      exact absurd hlt (lt_irrefl _)
    · exact mem_reverse.mp hmem

end

/-- The labels that the pass computes. -/
def combinedLabels (topSort : TopologicalSort ℕ) (dag : OpDag Inner) :
    Option (List String) := do
  let order := topSort dag.operators dag.edges
  let outgoing ← outgoingPathLabel dag order
  let incoming ← incomingPathLabel dag order.reverse
  some (dag.operators.map (combinedLabel incoming outgoing))

theorem SingleSink.port (h : SingleSink dag) : ∀ f ∈ dag.flows, ∀ g ∈ dag.flows, f.target = g.target → f = g :=
  fun _ hf _ hg heq => inj_on_of_nodup_map h.target hf hg heq

theorem SingleSink.sink_unique (h : SingleSink dag) : ∀ u ∈ dag.operators, ∀ v ∈ dag.operators,
    dag.graph.outFlows u = [] → dag.graph.outFlows v = [] → u = v := by
  obtain ⟨sink, -, hsink⟩ := h.sink
  exact fun u hu v hv hnil hnil' => ((hsink u hu).mp hnil).trans ((hsink v hv).mp hnil').symm

theorem IsCombinedLabel.distinct {label : ℕ → String} (hlab : IsCombinedLabel dag label)
    (h : SingleSink dag) : Distinct label dag.operators := by
  obtain ⟨incoming, outgoing, -, hout, hcombined⟩ := hlab.labels
  have hsep : ∀ v ∈ dag.operators, '_' ∉ (outgoing v).toList := hout.notMem fun v _ f hf =>
    h.closed.target f (Dag.mem_outFlows.mp hf).1
  intro u hu v hv heq
  rw [hcombined u hu, hcombined v hv] at heq
  exact hout.injective h.closed.target h.port h.sink_unique u hu v hv
    (Text.append_string_inj (hsep u hu) (hsep v hv) heq).2

/-- A level is relabelled if and only if its labels are distinct. -/
theorem relabel_spec (hsort : IsTopologicalSort topSort) (hclosed : dag.Closed)
    (hacyc : dag.Acyclic) : ∃ label, IsCombinedLabel dag label ∧
      combinedLabels topSort dag = some (dag.operators.map label) ∧
      (Distinct label dag.operators →
        relabel topSort dag = some (renumbered dag (sortBy label dag.operators))) ∧
      ∀ dag', relabel topSort dag = some dag' → Distinct label dag.operators := by
  have hperm := (visitOrder hsort hclosed hacyc).1
  have hnd := hperm.nodup_iff.mpr hclosed.nodup
  obtain ⟨outgoing, outLabel, hout, hlabelled⟩ :=
    exists_pathLabels hnd (nextFirst_outgoing hsort hclosed hacyc)
  obtain ⟨incoming, inLabel, hin, hlabelled'⟩ :=
    exists_pathLabels (nodup_reverse.mpr hnd) (nextFirst_incoming hsort hclosed hacyc)
  have hmem : ∀ v ∈ dag.operators, v ∈ topSort dag.operators dag.edges := fun v hv => hperm.mem_iff.mpr hv
  have hcombined : IsCombinedLabel dag (combinedLabel incoming outgoing) := by
    refine ⟨inLabel, outLabel, fun v hv => ?_, fun v hv => ?_, fun v hv => ?_⟩
    · exact hlabelled'.labeling v (mem_reverse.mpr (hmem v hv))
    · exact hlabelled.labeling v (hmem v hv)
    · rw [combinedLabel, hlabelled.lookup v (hmem v hv), hlabelled'.lookup v (mem_reverse.mpr (hmem v hv))]
      rfl
  have hout' : outgoingPathLabel dag (topSort dag.operators dag.edges) = some outgoing := hout
  have hin' : incomingPathLabel dag (topSort dag.operators dag.edges).reverse =
    some incoming := hin
  have hlen : outgoing.length = dag.operators.length := by rw [hlabelled.length, hperm.length_eq]
  refine ⟨_, hcombined, ?_, fun hdist => ?_, fun dag' hrelabel => ?_⟩
  · simp only [combinedLabels, hout', hin', Option.bind_eq_bind, Option.bind_some]
  · have hids := vertexIds_eq hclosed.nodup hdist
      (by rw [hlabelled'.length, length_reverse, hperm.length_eq]) hlen
    simp only [relabel, hout', hin', hids, Option.bind_eq_bind, Option.bind_some]
    exact renumber_eq hclosed hacyc _
  · simp only [relabel, hout', hin', Option.bind_eq_bind, Option.bind_some] at hrelabel
    obtain ⟨ids, hids, -⟩ := Option.bind_eq_some_iff.mp hrelabel
    exact distinct_of_vertexIds hlen hids

theorem relabel_eq (hsort : IsTopologicalSort topSort) (h : SingleSink dag) :
    ∃ label, IsCombinedLabel dag label ∧ Distinct label dag.operators ∧
      combinedLabels topSort dag = some (dag.operators.map label) ∧
      relabel topSort dag = some (renumbered dag (sortBy label dag.operators)) := by
  obtain ⟨label, hlab, hlabs, hrelabel, -⟩ := relabel_spec hsort h.closed h.acyclic
  have hdist := hlab.distinct h
  exact ⟨label, hlab, hdist, hlabs, hrelabel hdist⟩

end

/-! ### Equal graphs -/

theorem idxOf_map_of_injOn {ρ : ℕ → ℕ} {l : List ℕ} {v : ℕ}
    (hρ : ∀ u ∈ l, ρ u = ρ v → u = v) : (l.map ρ).idxOf (ρ v) = l.idxOf v := by
  induction l with
  | nil => rfl
  | cons u l ih =>
    have ih := ih fun w hw => hρ w (mem_cons_of_mem u hw)
    rw [map_cons]
    by_cases huv : u = v
    · rw [huv, idxOf_cons_self, idxOf_cons_self]
    · rw [idxOf_cons_ne _ huv, idxOf_cons_ne _ fun heq => huv (hρ u mem_cons_self heq), ih]

/-- The graphs are the same up to the names of the operators and the order of operators and flows. -/
structure SameGraph (dag dag' : OpDag Inner) (ρ : ℕ → ℕ) : Prop where
  injective : ∀ u ∈ dag.operators, ∀ v ∈ dag.operators, ρ u = ρ v → u = v
  operators : dag'.operators.Perm (dag.operators.map ρ)
  flows : dag'.flows.Perm (dag.flows.map (Flow.rename ρ))

namespace SameGraph

variable {dag dag' : OpDag Inner} {ρ : ℕ → ℕ}

/-- The flows at one end of an operator. -/
theorem filter_flows (h : SameGraph dag dag' ρ) {tip : Flow → FlowTip} (htip : ∀ f, tip (f.rename ρ) = (tip f).rename ρ)
    (hmem : ∀ f ∈ dag.flows, (tip f).op ∈ dag.operators) {v : ℕ} (hv : v ∈ dag.operators) :
    (dag'.flows.filter fun f => (tip f).op = ρ v).Perm
      ((dag.flows.filter fun f => (tip f).op = v).map (Flow.rename ρ)) := by
  refine (h.flows.filter _).trans (List.Perm.of_eq ?_)
  rw [filter_map]
  refine congrArg (List.map (Flow.rename ρ)) (filter_congr fun f hf => decide_eq_decide.mpr ?_)
  rw [htip]
  exact ⟨fun heq => h.injective _ (hmem f hf) v hv heq, fun heq => congrArg ρ heq⟩

variable {topSort : TopologicalSort ℕ}

/-- Equal graphs have equal labels. -/
theorem label (h : SameGraph dag dag' ρ) (hsort : IsTopologicalSort topSort)
    (hclosed : dag.Closed) (hacyc : dag.Acyclic) {label label' : ℕ → String}
    (hlab : IsCombinedLabel dag label) (hlab' : IsCombinedLabel dag' label') :
    ∀ v ∈ dag.operators, label' (ρ v) = label v := by
  obtain ⟨incoming, outgoing, hin, hout, heq⟩ := hlab.labels
  obtain ⟨incoming', outgoing', hin', hout', heq'⟩ := hlab'.labels
  have hperm := (visitOrder hsort hclosed hacyc).1
  have hnd := hperm.nodup_iff.mpr hclosed.nodup
  have hρ : ∀ v ∈ dag.operators, ρ v ∈ dag'.operators := fun v hv => h.operators.mem_iff.mpr (mem_map_of_mem hv)
  have hincoming : ∀ v ∈ dag.operators, incoming' (ρ v) = incoming v := by
    refine hin.rename hin' (fun v => (topSort dag.operators dag.edges).reverse.idxOf v) hρ
      (fun v hv => h.filter_flows (fun _ => rfl) hclosed.target hv) (fun f => rfl) ?_ fun v hv f hf => ?_
    · exact fun v _ f hf => hclosed.source f (Dag.mem_inFlows.mp hf).1
    · exact (nextFirst_incoming hsort hclosed hacyc).idxOf_lt (nodup_reverse.mpr hnd)
        (mem_reverse.mpr (hperm.mem_iff.mpr hv)) hf
  have houtgoing : ∀ v ∈ dag.operators, outgoing' (ρ v) = outgoing v := by
    refine hout.rename hout' (fun v => (topSort dag.operators dag.edges).idxOf v) hρ
      (fun v hv => h.filter_flows (fun _ => rfl) hclosed.source hv) (fun f => rfl) ?_ fun v hv f hf => ?_
    · exact fun v _ f hf => hclosed.target f (Dag.mem_outFlows.mp hf).1
    · exact (nextFirst_outgoing hsort hclosed hacyc).idxOf_lt hnd (hperm.mem_iff.mpr hv) hf
  intro v hv
  rw [heq v hv, heq' _ (hρ v hv), hincoming v hv, houtgoing v hv]

/-- Equal graphs have their operators in the same order. -/
theorem sortBy_label (h : SameGraph dag dag' ρ) (hsort : IsTopologicalSort topSort) (hsink : SingleSink dag)
    {label label' : ℕ → String} (hlab : IsCombinedLabel dag label) (hlab' : IsCombinedLabel dag' label') :
    sortBy label' dag'.operators = (sortBy label dag.operators).map ρ :=
  sortBy_map (hlab.distinct hsink) h.operators (h.label hsort hsink.closed hsink.acyclic hlab hlab')

end SameGraph

/-- The operators are numbered in their order. -/
theorem operators_renumbered {ids : List ℕ} (hperm : ids.Perm dag.operators)
    (hnd : dag.operators.Nodup) : (renumbered dag ids).operators = ids := by
  have hids := hperm.nodup_iff.mpr hnd
  refine (eq_sortBy ?_ hperm ?_).symm
  · intro u hu v hv heq
    exact (idxOf_inj (hperm.mem_iff.mpr hu)).mp heq
  · refine pairwise_iff_getElem.mpr fun i j hi hj hij => ?_
    rw [hids.idxOf_getElem, hids.idxOf_getElem]
    exact hij.le

/-- Flows of different ports have different keys. -/
theorem distinct_flowKey {idOf : ℕ → ℕ} (hclosed : dag.Closed)
    (hid : ∀ u ∈ dag.operators, ∀ v ∈ dag.operators, idOf u = idOf v → u = v) :
    Distinct (flowKey idOf) dag.flows := by
  intro f hf g hg heq
  obtain ⟨hsrc, htgt⟩ := Prod.mk.inj (toLex_inj.mp heq)
  obtain ⟨hs, hsp⟩ := Prod.mk.inj (toLex_inj.mp hsrc)
  obtain ⟨ht, htp⟩ := Prod.mk.inj (toLex_inj.mp htgt)
  have hs := hid _ (hclosed.source f hf) _ (hclosed.source g hg) hs
  have ht := hid _ (hclosed.target f hf) _ (hclosed.target g hg) ht
  exact congrArg₂ Flow.mk (congrArg₂ FlowTip.mk hs hsp) (congrArg₂ FlowTip.mk ht htp)

end

end Jitq.Optimize

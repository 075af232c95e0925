import Jitq.Optimize.MergePorts

namespace Jitq.Optimize

open SortedMap Partial Graphs List

/-! # When a merge succeeds

A merge asserts in many places that operators, ports and flows are as it expects them, and that no flow closes a cycle.

* `Workers` — what it expects of the inner DAGs;
* `WorkersConnected` — what it expects of a plan;
* `Connectable` — one lookup after the other can be replaced;
* `Rewired` — the two levels of the plan after a merge;
* `exists_mergeInto` — the merge of two connected operators succeeds, unless the plan itself refers to the absorbed
  one. -/

variable {I : Type}

/-- Each lookup of the workers has one consumer and nothing else, and the output ports have no gaps. -/
structure Workers (inner : OpDag I) : Prop where
  closed : inner.Closed
  acyclic : inner.Acyclic
  consumer : ∀ e ∈ inner.inputs.entries, ∃ g, inner.graph.outFlows e.2.op = [g]
  source : ∀ e ∈ inner.inputs.entries, ∀ g ∈ inner.flows, g.target.op ≠ e.2.op
  noOutput : ∀ e ∈ inner.inputs.entries, ∀ o ∈ inner.outputs.entries, o.2.op ≠ e.2.op
  outputPorts : ∀ e ∈ inner.outputs.entries, e.1 < inner.numOutPorts

/-- The parallel operators have workers with consistent ports, and what is read from them are their outputs. -/
structure WorkersConnected (dag : Plan I) : Prop where
  distinct : DistinctOperators dag
  ports : AllPortsConsistent dag
  workers : ∀ v ∈ dag.operators, isParallel dag v = true → ∀ inner ∈ (dag.op v).innerDag, Workers inner
  outputs : ∀ f ∈ dag.flows, isParallel dag f.source.op = true → ∀ inner ∈ (dag.op f.source.op).innerDag,
    ∃ tip, inner.outputs.find f.source.port = some tip

/-! ### Replacing lookups -/

/-- One of the flows leads to the lookup. -/
def Replaced (inner : OpDag I) (fs : List Flow) (v : ℕ) : Prop :=
  ∃ f ∈ fs, ∃ e ∈ inner.inputs.entries, e.1 = f.target.port ∧ e.2.op = v

instance (inner : OpDag I) (fs : List Flow) (v : ℕ) : Decidable (Replaced inner fs v) := by
  unfold Replaced
  infer_instance

/-- A flow from the old output to the consumer of the lookup that an outer flow leads to. -/
def Bypasses (outputs : Map ℕ FlowTip) (inner : OpDag I) (f x : Flow) : Prop :=
  ∃ e ∈ inner.inputs.entries, ∃ g ∈ inner.flows, e.1 = f.target.port ∧ g.source.op = e.2.op ∧
    outputs.find f.source.port = some x.source ∧ x.target = g.target

/-- The lookups that the flows `fs` lead to can be replaced by outputs; the flows go upwards along a rank. -/
structure Connectable (outputs : Map ℕ FlowTip) (rank : ℕ → ℕ ×ₗ ℕ) (inner : OpDag I)
    (fs : List Flow) : Prop where
  nodup : inner.operators.Nodup
  target : ∀ g ∈ inner.flows, g.target.op ∈ inner.operators
  ranked : ∀ g ∈ inner.flows, rank g.source.op < rank g.target.op
  keys : (inner.inputs.entries.map Prod.fst).Nodup
  distinct : (inner.inputs.entries.map fun e => e.2.op).Nodup
  ports : (fs.map fun f => f.target.port).Nodup
  lookup : ∀ f ∈ fs, ∃ tip, (f.target.port, tip) ∈ inner.inputs.entries ∧ tip.op ∈ inner.operators ∧
    (inner.op tip.op).operator.cls = .parameterLookup ∧ (∃ g, inner.graph.outFlows tip.op = [g]) ∧
    (∀ g ∈ inner.flows, g.target.op ≠ tip.op) ∧ ∀ e ∈ inner.outputs.entries, e.2.op ≠ tip.op
  output : ∀ f ∈ fs, ∃ output, outputs.find f.source.port = some output ∧ output.op ∈ inner.operators ∧
    (∀ e ∈ inner.inputs.entries, e.2.op ≠ output.op) ∧
    ∀ g ∈ inner.flows, (∃ e ∈ inner.inputs.entries, e.2.op = g.source.op) → rank output.op < rank g.target.op

variable {v : ℕ}

section Connect

variable {outputs : Map ℕ FlowTip} {rank : ℕ → ℕ ×ₗ ℕ} {inner : OpDag I} {f g : Flow}
    {fs : List Flow}
  {tip output : FlowTip}

/-- Without its only out-flow, an operator has none. -/
theorem erase_perm_of_outFlows {Op : Type} {dag : PortedDag Op} (h : dag.graph.outFlows v = [g]) :
    (dag.flows.erase g).Perm (dag.flows.filter fun x => x.source.op ≠ v) := by
  have hpart := (filter_append_perm (fun x : Flow => decide (x.source.op = v)) dag.flows).symm
  have hout : dag.flows.filter (fun x => decide (x.source.op = v)) = [g] := h
  rw [hout, singleton_append] at hpart
  have herase := hpart.erase g
  simpa using herase

/-- The next lookup that is replaced, with its consumer and the output that takes its place. -/
structure NextLookup (outputs : Map ℕ FlowTip) (inner : OpDag I) (f : Flow) (tip : FlowTip) (g : Flow)
    (output : FlowTip) : Prop where
  entry : (f.target.port, tip) ∈ inner.inputs.entries
  consumer : inner.graph.outFlows tip.op = [g]
  oldOutput : outputs.find f.source.port = some output
  noInput : ∀ e ∈ inner.inputs.entries, e.2.op ≠ output.op

section

variable (h : NextLookup outputs inner f tip g output)

include h

theorem NextLookup.mem_flows : g ∈ inner.flows ∧ g.source.op = tip.op := by
  have hmem : g ∈ inner.graph.outFlows tip.op := by
    rw [h.consumer]
    exact mem_singleton_self g
  exact Dag.mem_outFlows.mp hmem

theorem NextLookup.mem_erase {x : Flow} : x ∈ inner.flows.erase g ↔ x ∈ inner.flows ∧ x.source.op ≠ tip.op := by
  rw [(erase_perm_of_outFlows h.consumer).mem_iff, mem_filter, decide_eq_true_eq]

theorem NextLookup.mem_replaceLookup {x : Flow} : x ∈ (replaceLookup inner f.target.port tip g output).flows ↔
      (x ∈ inner.flows ∧ x.source.op ≠ tip.op) ∨ x = ⟨output, g.target⟩ := by
  show x ∈ inner.flows.erase g ++ [⟨output, g.target⟩] ↔ _
  rw [mem_append, h.mem_erase, mem_singleton]

/-- The out-flows of other operators stay. -/
theorem NextLookup.outFlows (hv : v ≠ tip.op) (hout : output.op ≠ v) :
    ((replaceLookup inner f.target.port tip g output).graph.outFlows v).Perm (inner.graph.outFlows v) := by
  have hperm := ((erase_perm_of_outFlows h.consumer).append_right [⟨output, g.target⟩]).filter
    fun x => decide (x.source.op = v)
  refine hperm.trans (List.Perm.of_eq ?_)
  rw [filter_append, filter_filter, filter_singleton, decide_eq_false hout]
  refine (append_nil _).trans (filter_congr fun x _ => ?_)
  by_cases hx : x.source.op = v
  · simp [hx, hv]
  · simp [hx]

end

/-- One lookup is replaced, and the others can still be. -/
theorem Connectable.step (h : Connectable outputs rank inner (f :: fs)) :
    ∃ tip g output, NextLookup outputs inner f tip g output ∧
      connectOutput outputs inner f = some (replaceLookup inner f.target.port tip g output) ∧
      Connectable outputs rank (replaceLookup inner f.target.port tip g output) fs := by
  obtain ⟨tip, hentry, htip, hcls, ⟨g, hg⟩, hnoIn, hnoOut⟩ := h.lookup f mem_cons_self
  obtain ⟨output, hout, hop, hnoInp, hrank⟩ := h.output f mem_cons_self
  have hnext : NextLookup outputs inner f tip g output := ⟨hentry, hg, hout, hnoInp⟩
  have hgmem := hnext.mem_flows
  have hother {e : ℕ × FlowTip} (he : e ∈ inner.inputs.entries) (hport : e.1 ≠ f.target.port) :
      e.2.op ≠ tip.op := fun heq =>
    hport (congrArg Prod.fst (inj_on_of_nodup_map h.distinct he hentry heq))
  have hranked : ∀ x ∈ (replaceLookup inner f.target.port tip g output).flows,
      rank x.source.op < rank x.target.op := by
    intro x hx
    rcases hnext.mem_replaceLookup.mp hx with ⟨hx, -⟩ | rfl
    · exact h.ranked x hx
    · exact hrank g hgmem.1 ⟨_, hentry, hgmem.2.symm⟩
  refine ⟨tip, g, output, hnext, connectOutput_eq_some.mpr ⟨tip, g, output, ?_, rfl⟩, ?_⟩
  · refine ⟨PortedDag.input_eq_some.mpr (MultiMap.equalRange_eq_singleton h.keys hentry),
      Dag.single_eq_some.mpr hg, hcls, htip, ⟨fun x hx => ?_, fun e he => ?_, hnoOut⟩, hout, ?_, ?_, ?_⟩
    · obtain ⟨hx, hsrc⟩ := hnext.mem_erase.mp hx
      exact ⟨hsrc, hnoIn x hx⟩
    · obtain ⟨he, hport⟩ := MultiMap.mem_erase.mp he
      exact hother he hport
    · exact (mem_erase_of_ne (hnoInp _ hentry).symm).mpr hop
    · exact (mem_erase_of_ne (hnoIn g hgmem.1)).mpr (h.target g hgmem.1)
    · refine PortedDag.hasCycle_eq_false (acyclic_of_lt rank fun e he => ?_)
      obtain ⟨x, hx, rfl⟩ := mem_map.mp he
      exact hranked x hx
  · have hport : f.target.port ∉ fs.map fun f => f.target.port := (nodup_cons.mp h.ports).1
    have hents : ∀ e ∈ (inner.inputs.erase f.target.port).entries, e ∈ inner.inputs.entries :=
      fun e he => (MultiMap.mem_erase.mp he).1
    refine ⟨h.nodup.erase _, fun x hx => ?_, hranked, h.keys.sublist (filter_sublist.map _),
      h.distinct.sublist (filter_sublist.map _), (nodup_cons.mp h.ports).2, fun f' hf' => ?_,
      fun f' hf' => ?_⟩
    · rcases hnext.mem_replaceLookup.mp hx with ⟨hx, -⟩ | rfl
      · exact (mem_erase_of_ne (hnoIn x hx)).mpr (h.target x hx)
      · exact (mem_erase_of_ne (hnoIn g hgmem.1)).mpr (h.target g hgmem.1)
    · obtain ⟨tip', hentry', htip', hcls', ⟨g', hg'⟩, hnoIn', hnoOut'⟩ := h.lookup f' (mem_cons_of_mem f hf')
      have hport' : f'.target.port ≠ f.target.port := by
        intro heq
        exact hport (heq ▸ mem_map_of_mem hf')
      have hne := hother hentry' hport'
      refine ⟨tip', MultiMap.mem_erase.mpr ⟨hentry', hport'⟩, (mem_erase_of_ne hne).mpr htip', hcls', ⟨g', ?_⟩,
        fun x hx => ?_, hnoOut'⟩
      · have hperm := hnext.outFlows hne (hnoInp _ hentry').symm
        rw [hg'] at hperm
        exact perm_singleton.mp hperm
      · rcases hnext.mem_replaceLookup.mp hx with ⟨hx, -⟩ | rfl
        · exact hnoIn' x hx
        · exact hnoIn' g hgmem.1
    · obtain ⟨output', hout', hop', hnoInp', hrank'⟩ := h.output f' (mem_cons_of_mem f hf')
      refine ⟨output', hout', (mem_erase_of_ne (hnoInp' _ hentry).symm).mpr hop',
        fun e he => hnoInp' e (hents e he), fun x hx ⟨e, he, hsrc⟩ => ?_⟩
      rcases hnext.mem_replaceLookup.mp hx with ⟨hx, -⟩ | rfl
      · exact hrank' x hx ⟨e, hents e he, hsrc⟩
      · exact absurd hsrc (hnoInp e (hents e he))

/-- The inner DAG after the lookups have been replaced. -/
structure Connected (outputs : Map ℕ FlowTip) (rank : ℕ → ℕ ×ₗ ℕ) (inner inner' : OpDag I)
    (fs : List Flow) : Prop where
  ranked : ∀ g ∈ inner'.flows, rank g.source.op < rank g.target.op
  operators : ∀ v, v ∈ inner'.operators ↔ v ∈ inner.operators ∧ ¬ Replaced inner fs v
  flows : ∃ news, List.Forall₂ (Bypasses outputs inner) fs news ∧
    inner'.flows.Perm (inner.flows.filter (fun x => ¬ Replaced inner fs x.source.op) ++ news)

theorem replaced_cons_iff (h : Connectable outputs rank inner (f :: fs))
    (hnext : NextLookup outputs inner f tip g output) :
    Replaced inner (f :: fs) v ↔ v = tip.op ∨ Replaced (replaceLookup inner f.target.port tip g output) fs v := by
  have hport : f.target.port ∉ fs.map fun f => f.target.port := (nodup_cons.mp h.ports).1
  constructor
  · rintro ⟨f', hf', e, he, hkey, rfl⟩
    rcases mem_cons.mp hf' with rfl | hf'
    · left
      rw [inj_on_of_nodup_map h.keys he hnext.entry hkey]
    · refine .inr ⟨f', hf', e, MultiMap.mem_erase.mpr ⟨he, fun heq => ?_⟩, hkey, rfl⟩
      exact hport (heq ▸ hkey ▸ mem_map_of_mem hf')
  · rintro (rfl | ⟨f', hf', e, he, hkey, rfl⟩)
    · exact ⟨f, mem_cons_self, _, hnext.entry, rfl, rfl⟩
    · exact ⟨f', mem_cons_of_mem f hf', e, (MultiMap.mem_erase.mp he).1, hkey, rfl⟩

theorem exists_connectOutput (h : Connectable outputs rank inner fs) :
    ∃ inner', fs.foldlM (connectOutput outputs) inner = some inner' ∧ Connected outputs rank inner inner' fs := by
  induction fs generalizing inner with
  | nil => exact ⟨inner, rfl, h.ranked, by simp [Replaced], [], .nil, by simp [Replaced]⟩
  | cons f fs ih =>
    obtain ⟨tip, g, output, hnext, hconnect, hrest⟩ := h.step
    obtain ⟨inner', hfold, hranked, hops, news, hnews, hflows⟩ := ih hrest
    have hrepl {v : ℕ} := replaced_cons_iff h hnext (v := v)
    refine ⟨inner', foldlM_cons_eq_some.mpr ⟨_, hconnect, hfold⟩, hranked, fun v => ?_, ⟨output, g.target⟩ :: news,
      .cons ⟨_, hnext.entry, g, hnext.mem_flows.1, rfl, hnext.mem_flows.2, hnext.oldOutput, rfl⟩
        (hnews.imp fun f' x hx => ?_), ?_⟩
    · rw [hops, hrepl, not_or]
      show v ∈ inner.operators.erase tip.op ∧ _ ↔ _
      rw [h.nodup.mem_erase_iff]
      tauto
    · obtain ⟨e, he, g', hg', hkey, hsrc, hout, htgt⟩ := hx
      have he := (MultiMap.mem_erase.mp he).1
      rcases hnext.mem_replaceLookup.mp hg' with ⟨hg', -⟩ | rfl
      · exact ⟨e, he, g', hg', hkey, hsrc, hout, htgt⟩
      · exact absurd hsrc.symm (hnext.noInput e he)
    · -- the new flow starts at no lookup
      have hnew : ¬ Replaced (replaceLookup inner f.target.port tip g output) fs output.op := by
        rintro ⟨f', -, e, he, -, heq⟩
        exact hnext.noInput e (MultiMap.mem_erase.mp he).1 heq
      have hperm := (erase_perm_of_outFlows hnext.consumer).filter
        fun x => decide (¬ Replaced (replaceLookup inner f.target.port tip g output) fs x.source.op)
      have hfilt : (inner.flows.filter fun x => decide (x.source.op ≠ tip.op)).filter (fun x =>
          decide (¬ Replaced (replaceLookup inner f.target.port tip g output) fs x.source.op)) =
          inner.flows.filter fun x => decide (¬ Replaced inner (f :: fs) x.source.op) := by
        rw [filter_filter]
        refine filter_congr fun x _ => ?_
        rw [← Bool.decide_and, decide_eq_decide, hrepl, not_or]
        exact and_comm
      refine hflows.trans ?_
      show ((inner.flows.erase g ++ [_]).filter _ ++ news).Perm _
      rw [filter_append, filter_singleton, decide_eq_true hnew, append_assoc, cond_true, singleton_append]
      rw [hfilt] at hperm
      exact hperm.append_right _

end Connect

/-! ### The parts of a merge -/

section Merge

variable {dag : Plan I} {pop other : ℕ} {inner otherInner : OpDag I}

/-- Two DAGs of workers, the second of which reads from the first. -/
noncomputable def workersRank (inner otherInner : OpDag I) : ℕ → ℕ ×ₗ ℕ :=
  layeredRank (· ∈ otherInner.operators) otherInner.edges inner.edges

theorem workersRank_lt (hinner : Workers inner) (hother : Workers otherInner)
    (hdisj : inner.operators.Disjoint otherInner.operators) {g : Flow} (hg : g ∈ inner.flows ++ otherInner.flows) :
    workersRank inner otherInner g.source.op < workersRank inner otherInner g.target.op := by
  rcases mem_append.mp hg with hg | hg
  · exact layeredRank_lt_second hinner.acyclic (mem_map_of_mem hg)
      (fun hmem => hdisj (hinner.closed.source g hg) hmem) fun hmem => hdisj (hinner.closed.target g hg) hmem
  · exact layeredRank_lt_first hother.acyclic (mem_map_of_mem hg) (hother.closed.source g hg)
      (hother.closed.target g hg)

theorem exists_moveInner (hinner : Workers inner) (hother : Workers otherInner)
    (hdisj : inner.operators.Disjoint otherInner.operators) :
    ∃ moved, moveInner otherInner inner = some moved ∧ Moved inner otherInner moved := by
  obtain ⟨dags, hdags, hext⟩ := PortedDag.foldlM_moveOperator otherInner.operators
    { otherInner with flows := [], inputs := ∅, outputs := ∅ } inner rfl hother.closed.nodup rfl rfl rfl
  have hadd : otherInner.flows.foldlM (fun dag f => dag.addFlow f.source f.target) dags.2 =
      some { dags.2 with flows := dags.2.flows ++ otherInner.flows } := by
    refine PortedDag.foldlM_addFlow (acyclic_of_lt (workersRank inner otherInner) fun e he => ?_) fun f hf => ?_
    · obtain ⟨g, hg, rfl⟩ := mem_map.mp he
      refine workersRank_lt hinner hother hdisj ?_
      rwa [← hext.flows]
    · rw [hext.operators]
      exact ⟨mem_append_right _ (hother.closed.source f hf), mem_append_right _ (hother.closed.target f hf)⟩
  have hmove : moveInner otherInner inner = some { dags.2 with flows := dags.2.flows ++ otherInner.flows } := by
    unfold moveInner
    simp only [hdags, Option.bind_eq_bind, Option.bind_some]
    exact hadd
  exact ⟨_, hmove, moveInner_eq_some hother.closed.nodup hmove⟩

/-- What the proofs about one merge assume. -/
structure WorkersPair (dag : Plan I) (pop other : ℕ) (inner otherInner : OpDag I) : Prop
    extends MergePair dag pop other inner otherInner where
  plan : WorkersConnected dag

variable {moved : OpDag I}

namespace WorkersPair

variable (h : WorkersPair dag pop other inner otherInner)

include h

theorem workers : Workers inner := h.plan.workers pop h.mem_operators.1 h.flow.2.2 inner h.innerDag

theorem otherWorkers : Workers otherInner := h.plan.workers other h.mem_operators.2 h.flow.2.1 otherInner h.otherInnerDag

/-- What is read from the absorbed operator is one of its outputs. -/
theorem output {f : Flow} (hf : f ∈ dag.graph.outFlows other) :
    ∃ tip, otherInner.outputs.find f.source.port = some tip ∧ tip.op ∈ otherInner.operators ∧
      ∀ e ∈ otherInner.inputs.entries, e.2.op ≠ tip.op := by
  obtain ⟨hmem, rfl⟩ := Dag.mem_outFlows.mp hf
  obtain ⟨tip, htip⟩ := h.plan.outputs f hmem h.flow.2.1 otherInner h.otherInnerDag
  have hentry := Map.find_eq_some_iff.mp htip
  exact ⟨tip, htip, h.otherWorkers.closed.output _ hentry, fun e he => (h.otherWorkers.noOutput e he _ hentry).symm⟩

theorem connectable (hmoved : Moved inner otherInner moved) :
    Connectable otherInner.outputs (workersRank inner otherInner) moved (inbetweenFlows dag pop other) := by
  have hinner := h.workers
  have hother := h.otherWorkers
  refine ⟨?_, fun g hg => ?_, fun g hg => ?_, ?_, ?_, ?_, fun f hf => ?_, fun f hf => ?_⟩
  · rw [hmoved.operators]
    exact h.nodup
  · rw [hmoved.flows] at hg
    rw [hmoved.operators]
    rcases mem_append.mp hg with hg | hg
    · exact mem_append_left _ (hinner.closed.target g hg)
    · exact mem_append_right _ (hother.closed.target g hg)
  · rw [hmoved.flows] at hg
    exact workersRank_lt hinner hother h.disjoint hg
  · rw [hmoved.inputs]
    exact h.ports.nodup_inputs
  · rw [hmoved.inputs]
    exact h.ports.distinct
  · rw [inbetweenFlows_eq]
    exact h.ports.nodup_flows.sublist (filter_sublist.map _)
  · -- the port of the flow has a lookup
    have hport : f.target.port ∈ inner.inputs.entries.map Prod.fst := by
      rw [h.ports.inputs.mem_iff, ← h.ports.flows.mem_iff]
      rw [inbetweenFlows_eq] at hf
      exact mem_map_of_mem (mem_of_mem_filter hf)
    obtain ⟨e, he, hkey⟩ := mem_map.mp hport
    have hop := hinner.closed.input e he
    obtain ⟨g, hg⟩ := hinner.consumer e he
    refine ⟨e.2, ?_, ?_, ?_, ⟨g, ?_⟩, fun x hx => ?_, ?_⟩
    · rw [hmoved.inputs, ← hkey]
      exact he
    · rw [hmoved.operators]
      exact mem_append_left _ hop
    · rw [hmoved.old _ fun hmem => h.disjoint hop hmem]
      exact h.ports.lookups e he
    · show moved.flows.filter _ = [g]
      have hnone : otherInner.flows.filter (fun x => decide (x.source.op = e.2.op)) = [] := by
        apply filter_eq_nil_iff.mpr
        intro x hx heq
        exact h.disjoint hop (of_decide_eq_true heq ▸ hother.closed.source x hx)
      rw [hmoved.flows, filter_append, hnone, append_nil]
      exact hg
    · rw [hmoved.flows] at hx
      rcases mem_append.mp hx with hx | hx
      · exact hinner.source e he x hx
      · exact fun heq => h.disjoint hop (heq ▸ hother.closed.target x hx)
    · rw [hmoved.outputs]
      exact hinner.noOutput e he
  · obtain ⟨tip, htip, hop, -⟩ := h.output (mem_of_mem_filter hf)
    refine ⟨tip, htip, ?_, fun e he heq => ?_, fun g hg ⟨e, he, hsrc⟩ => ?_⟩
    · rw [hmoved.operators]
      exact mem_append_right _ hop
    · rw [hmoved.inputs] at he
      exact h.disjoint (hinner.closed.input e he) (heq ▸ hop)
    · rw [hmoved.inputs] at he
      rw [hmoved.flows] at hg
      have hsrc' : g.source.op ∈ inner.operators := hsrc ▸ hinner.closed.input e he
      have hg : g ∈ inner.flows := (mem_append.mp hg).resolve_right fun hg =>
        h.disjoint hsrc' (hother.closed.source g hg)
      exact layeredRank_lt hop fun hmem => h.disjoint (hinner.closed.target g hg) hmem

/-- The inputs of the absorbed operator are listed by port. -/
theorem getElem?_inputs {f : Flow} (hf : f ∈ dag.graph.inFlows other) :
    ∃ e ∈ otherInner.inputs.entries, otherInner.inputs.entries[f.target.port]? = some e ∧ e.1 = f.target.port := by
  have hkeys : otherInner.inputs.entries.map Prod.fst = range (dag.op other).operator.cls.numInPorts := by
    refine h.otherPorts.inputs.eq_of_pairwise (fun a b _ _ hab hba => le_antisymm hab hba) ?_ pairwise_le_range
    exact pairwise_map.mpr otherInner.inputs.sorted
  have hlt : f.target.port < (dag.op other).operator.cls.numInPorts := by
    rw [← mem_range, ← h.otherPorts.flows.mem_iff]
    exact mem_map_of_mem hf
  have hget : (otherInner.inputs.entries.map Prod.fst)[f.target.port]? = some f.target.port := by
    rw [hkeys, getElem?_range hlt]
  rw [getElem?_map, Option.map_eq_some_iff] at hget
  obtain ⟨e, he, hport⟩ := hget
  exact ⟨e, mem_of_getElem? he, he, hport⟩

omit h in
/-- A flow that is moved and still leads upwards. -/
theorem ranked_moveFlow {Op : Type} {dag : PortedDag Op} {rank : ℕ → ℕ} (f : Flow) (source target : FlowTip)
    (hranked : Ranked dag.edges rank) (hlt : rank source.op < rank target.op) :
    Ranked ({ dag with flows := dag.flows.erase f ++ [⟨source, target⟩] } : PortedDag Op).edges rank := by
  intro x hx
  obtain ⟨g, hg, rfl⟩ := mem_map.mp hx
  rcases mem_append.mp hg with hg | hg
  · exact hranked _ (mem_map_of_mem (mem_of_mem_erase hg))
  · obtain rfl := mem_singleton.mp hg
    exact hlt

theorem exists_connectInput {connected : OpDag I} (ports : List ℕ)
    (hlookups : ∀ e ∈ otherInner.inputs.entries, e.2.op ∈ connected.operators) :
    ∃ inputs, (dag.graph.inFlows other).foldlM (connectInput pop otherInner.inputs.entries) ⟨dag, connected, ports⟩ =
      some inputs ∧ inputs.dag.operators = dag.operators ∧ inputs.inner.operators = connected.operators := by
  have hgraph := h.plan.distinct.graph
  have hdepth := hgraph.acyclic.ranked_depth
  -- the new flows skip the absorbed operator, so they lead upwards
  have hstep : ∀ s : Rewiring I, ∀ f ∈ dag.graph.inFlows other,
      (s.dag.operators = dag.operators ∧ s.inner.operators = connected.operators ∧
        Ranked s.dag.edges (depth dag.edges)) →
      ∃ s', connectInput pop otherInner.inputs.entries s f = some s' ∧ (s'.dag.operators = dag.operators ∧
        s'.inner.operators = connected.operators ∧ Ranked s'.dag.edges (depth dag.edges)) := by
    rintro s f hf ⟨hops, hinner, hranked⟩
    obtain ⟨hmem, htgt⟩ := Dag.mem_inFlows.mp hf
    have hedge : (f.source.op, other) ∈ dag.edges := mem_edges.mpr ⟨f, hmem, rfl, htgt⟩
    obtain ⟨e, he, hget, hport⟩ := h.getElem?_inputs hf
    have hranked' := ranked_moveFlow f f.source ⟨pop, s.newPort⟩ hranked
      ((hdepth _ hedge).trans (hdepth _ h.flow.1))
    refine ⟨_, connectInput_eq_some.mpr ⟨e, _, PortedDag.addFlow_eq_some.mpr ⟨⟨?_, ?_, ?_⟩, rfl⟩, hget, hport, ?_, rfl⟩,
      hops, hinner, hranked'⟩
    · show f.source.op ∈ s.dag.operators
      rw [hops]
      exact (hgraph.closed _ hedge).1
    · show pop ∈ s.dag.operators
      rw [hops]
      exact h.mem_operators.1
    · exact PortedDag.hasCycle_eq_false hranked'.acyclic
    · rw [hinner]
      exact hlookups e he
  obtain ⟨inputs, hins, hops, hinner, -⟩ := exists_foldlM hstep (s := ⟨dag, connected, ports⟩)
    ⟨rfl, rfl, hdepth⟩
  exact ⟨inputs, hins, hops, hinner⟩

theorem exists_connectConsumer {s : Plan I × OpDag I}
    (hsafe : ∀ t, (other, t) ∈ dag.edges → t ≠ pop → ¬ Reaches dag.edges t pop)
    (hops : s.1.operators = dag.operators) (hedges : ∀ e ∈ s.1.edges, ∃ e' ∈ dag.edges, e' ≠ (other, pop) ∧
      (contract pop other e.1, contract pop other e.2) = (contract pop other e'.1, contract pop other e'.2))
    (houts : ∀ v ∈ otherInner.operators, v ∈ s.2.operators) :
    ∃ consumers, (otherOutFlows dag pop other).foldlM (connectConsumer pop otherInner.outputs) s = some consumers := by
  have hgraph := h.plan.distinct.graph
  -- the flows lead upwards once the two operators have become one
  have hacyc : Acyclic ((dag.edges.filter fun e => e ≠ (other, pop)).map fun e =>
      (contract pop other e.1, contract pop other e.2)) := by
    refine IsContraction.acyclic (fun e' => ?_) hgraph.acyclic h.flow.1 hsafe
    constructor
    · intro he'
      obtain ⟨e, he, rfl⟩ := mem_map.mp he'
      obtain ⟨he, hne⟩ := mem_filter.mp he
      exact ⟨e, he, of_decide_eq_true hne, rfl⟩
    · rintro ⟨e, he, hne, rfl⟩
      exact mem_map.mpr ⟨e, mem_filter.mpr ⟨he, decide_eq_true hne⟩, rfl⟩
  obtain ⟨rank, hrank⟩ := acyclic_iff_rank.mp hacyc
  have hlt {e : ℕ × ℕ} (he : e ∈ dag.edges) (hne : e ≠ (other, pop)) :
      rank (contract pop other e.1) < rank (contract pop other e.2) :=
    hrank _ (mem_map.mpr ⟨e, mem_filter.mpr ⟨he, decide_eq_true hne⟩, rfl⟩)
  have hstep : ∀ s' : Plan I × OpDag I, ∀ f ∈ otherOutFlows dag pop other,
      (s'.1.operators = dag.operators ∧ s'.2.operators = s.2.operators ∧
        Ranked s'.1.edges fun v => rank (contract pop other v)) →
      ∃ s'', connectConsumer pop otherInner.outputs s' f = some s'' ∧ (s''.1.operators = dag.operators ∧
        s''.2.operators = s.2.operators ∧ Ranked s''.1.edges fun v => rank (contract pop other v)) := by
    rintro s' f hf ⟨hops', hinner, hranked⟩
    obtain ⟨hmem, hsrc, hne⟩ := mem_otherOutFlows.mp hf
    have hedge : (other, f.target.op) ∈ dag.edges := mem_edges.mpr ⟨f, hmem, hsrc, rfl⟩
    obtain ⟨tip, htip, hop, -⟩ := h.output (mem_of_mem_filter hf)
    have hlt := hlt hedge fun heq => hne (Prod.mk.inj heq).2
    rw [contract_self] at hlt
    have hranked' := ranked_moveFlow f ⟨pop, s'.2.numOutPorts⟩ f.target hranked
      (by rwa [contract_target])
    refine ⟨_, connectConsumer_eq_some.mpr ⟨tip, _, htip, ?_, PortedDag.addFlow_eq_some.mpr ⟨⟨?_, ?_, ?_⟩, rfl⟩, rfl⟩,
      hops', hinner, hranked'⟩
    · rw [hinner]
      exact houts tip.op hop
    · show pop ∈ s'.1.operators
      rw [hops']
      exact h.mem_operators.1
    · show f.target.op ∈ s'.1.operators
      rw [hops']
      exact (hgraph.closed _ hedge).2
    · exact PortedDag.hasCycle_eq_false hranked'.acyclic
  have hstart : Ranked s.1.edges fun v => rank (contract pop other v) := by
    intro e he
    obtain ⟨e', he', hne, heq⟩ := hedges e he
    obtain ⟨heq1, heq2⟩ := Prod.mk.inj heq
    show rank (contract pop other e.1) < rank (contract pop other e.2)
    rw [heq1, heq2]
    exact hlt he' hne
  obtain ⟨consumers, hconsumers, -⟩ := exists_foldlM hstep (s := s) ⟨hops, rfl, hstart⟩
  exact ⟨consumers, hconsumers⟩

end WorkersPair

/-! ### The plan after a merge -/

/-- The two levels of the plan after a merge. -/
structure Rewired (dag dag' : Plan I) (pop other : ℕ) (inner otherInner inner' : OpDag I) : Prop where
  ports : PortsMerged dag dag' pop other inner otherInner inner'
  outerFlows : dag'.flows.Perm (mergedFlows dag pop other (mergedPorts dag pop other)
    (range' inner.numOutPorts (otherOutFlows dag pop other).length))
  outputs : ∃ tips, List.Forall₂ (fun (f : Flow) tip => otherInner.outputs.find f.source.port = some tip)
      (otherOutFlows dag pop other) tips ∧
    inner'.outputs.entries = inner.outputs.entries ++
      (range' inner.numOutPorts (otherOutFlows dag pop other).length).zip tips
  operators : ∀ v, v ∈ inner'.operators ↔ (v ∈ inner.operators ∨ v ∈ otherInner.operators) ∧
    ¬ Replaced inner (inbetweenFlows dag pop other) v
  innerFlows : ∃ news, List.Forall₂ (Bypasses otherInner.outputs inner) (inbetweenFlows dag pop other) news ∧
    inner'.flows.Perm (inner.flows.filter (fun x => ¬ Replaced inner (inbetweenFlows dag pop other) x.source.op) ++
      otherInner.flows ++ news)
  acyclic : inner'.Acyclic

namespace WorkersPair

variable (h : WorkersPair dag pop other inner otherInner)

include h

/-- A lookup of one operator is none of the other. -/
theorem not_replaced (hv : v ∈ otherInner.operators) : ¬ Replaced inner (inbetweenFlows dag pop other) v := by
  rintro ⟨f, -, e, he, -, rfl⟩
  exact h.disjoint (h.workers.closed.input e he) hv

omit h in
theorem replaced_moved (hmoved : Moved inner otherInner moved) {fs : List Flow} :
    Replaced moved fs v ↔ Replaced inner fs v := by
  unfold Replaced
  rw [hmoved.inputs]

/-- The operators of the absorbed workers are all kept. -/
theorem mem_connected {moved connected : OpDag I} (hmoved : Moved inner otherInner moved)
    (hconn : Connected otherInner.outputs (workersRank inner otherInner) moved connected
      (inbetweenFlows dag pop other)) (hv : v ∈ otherInner.operators) : v ∈ connected.operators := by
  rw [hconn.operators, replaced_moved hmoved, hmoved.operators]
  exact ⟨mem_append_right _ hv, h.not_replaced hv⟩

/-- A new flow leads from the absorbed workers to the consumer of a lookup. -/
theorem bypasses (hmoved : Moved inner otherInner moved) {f x : Flow}
    (hx : Bypasses otherInner.outputs moved f x) : Bypasses otherInner.outputs inner f x := by
  obtain ⟨e, he, g, hg, hport, hsrc, hout, htgt⟩ := hx
  rw [hmoved.inputs] at he
  rw [hmoved.flows] at hg
  refine ⟨e, he, g, (mem_append.mp hg).resolve_right fun hg => ?_, hport, hsrc, hout, htgt⟩
  exact h.disjoint (h.workers.closed.input e he) (hsrc ▸ h.otherWorkers.closed.source g hg)

theorem rewired {dag' : Plan I} (hmerge : mergeInto dag pop other = some dag') :
    ∃ inner', Rewired dag dag' pop other inner otherInner inner' := by
  obtain ⟨run, hrun⟩ := mergeInto_eq_some.mp hmerge
  obtain rfl : inner = run.inner := Option.some.inj (h.innerDag.symm.trans run.innerDag)
  obtain rfl : otherInner = run.otherInner := Option.some.inj (h.otherInnerDag.symm.trans run.otherInnerDag)
  have hports := run.portsMerged h.toMergePair hrun
  have hmoved := run.moved_eq h.toMergePair
  obtain ⟨connected, hfold, hconn⟩ := exists_connectOutput (h.connectable hmoved)
  obtain rfl : run.connected = connected := Option.some.inj (run.connectOutput.symm.trans hfold)
  obtain ⟨-, houts, -⟩ := foldlM_connectOutput run.connectOutput
  obtain ⟨hflows, hins, -⟩ := run.inputsMoved h.toMergePair
  obtain ⟨_, tips, -, -, hflows', hconsumers, htips, hnew⟩ := run.flows_perm hflows
  have hold : run.inputs.inner.outputs = run.inner.outputs := by
    rw [hins]
    exact houts.trans hmoved.outputs
  obtain ⟨rfl, hents⟩ := hnew run.inner.numOutPorts (congrArg (fun m : Map ℕ FlowTip => m.entries.length) hold)
    fun e he => h.workers.outputPorts e (hold ▸ he)
  obtain ⟨-, rfl⟩ := PortedDag.removeOperator_eq_some.mp hrun
  have hinner' : run.consumers.2 = { run.connected with
      inputs := run.inputs.inner.inputs, outputs := run.consumers.2.outputs } := by
    rw [hconsumers, hins]
  obtain ⟨news, hnews, hnewFlows⟩ := hconn.flows
  refine ⟨run.consumers.2, hports, hflows', ⟨tips, htips, ?_⟩, fun v => ?_, ⟨news, ?_, ?_⟩, ?_⟩
  · rw [hents, hold]
  · rw [hinner']
    show v ∈ run.connected.operators ↔ _
    rw [hconn.operators, replaced_moved hmoved, hmoved.operators, mem_append]
  · exact hnews.imp fun f x hx => h.bypasses hmoved hx
  · rw [hinner']
    refine hnewFlows.trans (List.Perm.append_right news (List.Perm.of_eq ?_))
    have hsame : run.moved.flows.filter (fun x => ¬ Replaced run.moved (inbetweenFlows dag pop other) x.source.op) =
        run.moved.flows.filter fun x => ¬ Replaced run.inner (inbetweenFlows dag pop other) x.source.op :=
      filter_congr fun x _ => decide_eq_decide.mpr (not_congr (replaced_moved hmoved))
    have hall : run.otherInner.flows.filter
        (fun x => ¬ Replaced run.inner (inbetweenFlows dag pop other) x.source.op) = run.otherInner.flows := by
      apply filter_eq_self.mpr
      intro x hx
      exact decide_eq_true (h.not_replaced (h.otherWorkers.closed.source x hx))
    rw [hsame, hmoved.flows, filter_append, hall]
  · rw [hinner']
    refine acyclic_of_lt (workersRank run.inner run.otherInner) fun e he => ?_
    obtain ⟨x, hx, rfl⟩ := mem_map.mp he
    exact hconn.ranked x hx

/-- No flow is left at the absorbed operator. -/
theorem isolated_flows {inPorts outPorts : List ℕ} {f : Flow}
    (hf : f ∈ mergedFlows dag pop other inPorts outPorts) : f.source.op ≠ other ∧ f.target.op ≠ other := by
  rcases mem_mergedFlows.mp hf with ⟨-, hne⟩ | ⟨i, g, port, hg, -, rfl⟩ | ⟨i, g, port, hg, -, rfl⟩
  · exact hne
  · obtain ⟨hg, htgt⟩ := Dag.mem_inFlows.mp (mem_of_getElem? hg)
    exact ⟨fun hsrc => h.noLoop g hg hsrc htgt, h.ne⟩
  · obtain ⟨hg, hsrc, -⟩ := mem_otherOutFlows.mp (mem_of_getElem? hg)
    exact ⟨h.ne, h.noLoop g hg hsrc⟩

/-- A merge that closes no cycle succeeds iff the plan itself does not refer to the absorbed operator. -/
theorem exists_mergeInto (hsafe : ∀ t, (other, t) ∈ dag.edges → t ≠ pop → ¬ Reaches dag.edges t pop) :
    (∃ dag', mergeInto dag pop other = some dag') ↔
      (∀ e ∈ dag.inputs.entries, e.2.op ≠ other) ∧ ∀ e ∈ dag.outputs.entries, e.2.op ≠ other := by
  have hgraph := h.plan.distinct.graph
  constructor
  · rintro ⟨dag', hmerge⟩
    have hmerged := mergeInto_merged hgraph hmerge
    rw [← hmerged.inputs, ← hmerged.outputs]
    exact hmerged.isolated.2
  · rintro hisolated
    obtain ⟨moved, hmove, hmoved⟩ := exists_moveInner h.workers h.otherWorkers h.disjoint
    obtain ⟨connected, hconnect, hconn⟩ := exists_connectOutput (h.connectable hmoved)
    have hkept {v : ℕ} (hv : v ∈ otherInner.operators) := h.mem_connected hmoved hconn hv
    obtain ⟨inputs, hins, hops, hinner⟩ := h.exists_connectInput (portSet (inbetweenFlows dag pop other))
      fun e he => hkept (h.otherWorkers.closed.input e he)
    obtain ⟨inPorts, -, hin, -, hflows1, -⟩ := foldlM_connectInput _ [] hins (flows_perm_inFlows pop hgraph.noLoop)
    obtain ⟨hdag2, hflows2⟩ := foldl_removeFlow (inbetweenFlows dag pop other)
      (keptFlows dag other ++ otherOutFlows dag pop other ++ movedInFlows pop (dag.graph.inFlows other) inPorts)
      (hflows1.trans (perm_append_swap₂ _ _ _ _))
    -- the flows that are left lead where they led, with the absorbed operator replaced
    have hedges : ∀ e ∈ ((inbetweenFlows dag pop other).foldl PortedDag.removeFlow inputs.dag).edges,
        ∃ e' ∈ dag.edges, e' ≠ (other, pop) ∧
          (contract pop other e.1, contract pop other e.2) = (contract pop other e'.1, contract pop other e'.2) := by
      intro e he
      obtain ⟨f, hf, rfl⟩ := mem_map.mp he
      rcases mem_append.mp (hflows2.mem_iff.mp hf) with hf | hf
      · rcases mem_append.mp hf with hf | hf
        · obtain ⟨hf, hne⟩ := mem_filter.mp hf
          exact ⟨_, mem_map_of_mem hf, fun heq => (of_decide_eq_true hne).1 (Prod.mk.inj heq).1, rfl⟩
        · obtain ⟨hf, -, hne⟩ := mem_otherOutFlows.mp hf
          exact ⟨_, mem_map_of_mem hf, fun heq => hne (Prod.mk.inj heq).2, rfl⟩
      · obtain ⟨i, g, port, hg, -, rfl⟩ := mem_zipWith.mp hf
        obtain ⟨hg, htgt⟩ := Dag.mem_inFlows.mp (mem_of_getElem? hg)
        refine ⟨_, mem_map_of_mem hg, fun heq => h.ne (htgt ▸ (Prod.mk.inj heq).2.symm), ?_⟩
        show (contract pop other g.source.op, contract pop other pop) = _
        rw [htgt, contract_self, contract_target]
    have hops2 : ((inbetweenFlows dag pop other).foldl PortedDag.removeFlow inputs.dag).operators =
        dag.operators := by
      rw [hdag2]
      exact hops
    obtain ⟨consumers, hconsumers⟩ := h.exists_connectConsumer
      (s := ((inbetweenFlows dag pop other).foldl PortedDag.removeFlow inputs.dag, inputs.inner)) hsafe hops2
      hedges fun v hv => by
        rw [hinner]
        exact hkept hv
    let run : MergeRun dag pop other := ⟨inner, otherInner, moved, connected, inputs, consumers, h.innerDag,
      h.otherInnerDag, hmove, hconnect, hins, hconsumers⟩
    obtain ⟨inPorts, outPorts, -, -, hdag, hflows⟩ := run.outer h.noLoop
    refine ⟨_, mergeInto_eq_some.mpr ⟨run, PortedDag.removeOperator_eq_some.mpr ⟨⟨?_, ?_⟩, rfl⟩⟩⟩
    · show other ∈ run.consumers.1.operators
      rw [hdag]
      exact h.mem_operators.2
    · refine ⟨fun f hf => h.isolated_flows (hflows.mem_iff.mp hf), ?_⟩
      show (∀ e ∈ run.consumers.1.inputs.entries, _) ∧ ∀ e ∈ run.consumers.1.outputs.entries, _
      rw [hdag]
      exact hisolated

end WorkersPair

end Merge

end Jitq.Optimize

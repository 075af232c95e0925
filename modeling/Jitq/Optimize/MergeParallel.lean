import Jitq.Dag.Edit

namespace Jitq.Optimize

open SortedMap Partial Graphs List Option

/-! # Merging parallel operators

`MergeParallelOperators` merges each `ConcurrentExecute` with the ones that it reads from: the operators of
both inner DAGs end up in one, the lookups between them are replaced by flows, and the inputs and consumers
of the absorbed operator move to the other one.  A merge that might close a cycle is put off; whether it
might is read off a topological order.  Afterwards, constants that are broadcast to all workers are moved
into the inner DAG.

* `mergeInto` — one merge;
* `step` — the work list;
* `unbroadcast` — the step for one constant;
* `Merged` — what a merge changes in the outer plan. -/

variable {I : Type}

/-- A plan on the two levels that the pass looks at. -/
abbrev Plan (I : Type) := OpDag (OpDag I)

/-! ### One merge -/

/-- `IsInstanceOf<DAGConcurrentExecute>`. -/
def isConcurrentExecute : OperatorClass → Bool
  | .concurrentExecute .. => true
  | _ => false

def isParallel (dag : Plan I) (v : ℕ) : Bool := isConcurrentExecute (dag.op v).operator.cls

/-- `inbetween_flows`. -/
def inbetweenFlows (dag : Plan I) (pop other : ℕ) : List Flow :=
  (dag.graph.outFlows other).filter fun f => f.target.op = pop

/-- `other_out_flows`. -/
def otherOutFlows (dag : Plan I) (pop other : ℕ) : List Flow :=
  (dag.graph.outFlows other).filter fun f => f.target.op ≠ pop

/-- Moves the operators and the flows of the other inner DAG. -/
def moveInner (otherInner inner : OpDag I) : Option (OpDag I) := do
  let emptied := { otherInner with flows := [], inputs := ∅, outputs := ∅ }
  let dags ← otherInner.operators.foldlM (fun dags v => PortedDag.moveOperator dags.1 dags.2 v) (emptied, inner)
  otherInner.flows.foldlM (fun dag f => dag.addFlow f.source f.target) dags.2

/-- Replaces the lookup that an in-between flow leads to by a flow from the old output. -/
def connectOutput (tempOutputs : Map ℕ FlowTip) (inner : OpDag I) (inFlow : Flow) :
    Option (OpDag I) := do
  let inputTip ← inner.input inFlow.target.port
  let innerFlow ← inner.graph.outFlow inputTip.op
  guard ((inner.op inputTip.op).operator.cls = .parameterLookup)
  let inner ← ((inner.resetInput inFlow.target.port).removeFlow innerFlow).removeOperator inputTip.op
  let output ← tempOutputs.find inFlow.source.port
  inner.addFlow output innerFlow.target

/-- The outer and the inner plan while the inputs are moved, with the ports that can be used again. -/
structure Rewiring (I : Type) where
  dag : Plan I
  inner : OpDag I
  inputPorts : List ℕ

/-- The port of the next input: the smallest free one, or a new one. -/
def Rewiring.newPort (s : Rewiring I) : ℕ := s.inputPorts.headD s.inner.inputs.entries.length

/-- Moves an in-flow of the other operator. -/
def connectInput (pop : ℕ) (tempInputs : List (ℕ × FlowTip)) (s : Rewiring I) (f : Flow) : Option (Rewiring I) := do
  let dag ← (s.dag.removeFlow f).addFlow f.source ⟨pop, s.newPort⟩
  let oldInput ← tempInputs[f.target.port]?
  guard (oldInput.1 = f.target.port)
  let inner ← s.inner.setInput s.newPort ⟨oldInput.2.op, 0⟩
  some ⟨dag, inner, s.inputPorts.tail⟩

/-- Moves an out-flow of the other operator that does not lead to `pop`. -/
def connectConsumer (pop : ℕ) (tempOutputs : Map ℕ FlowTip) (s : Plan I × OpDag I) (f : Flow) :
    Option (Plan I × OpDag I) := do
  let dag := s.1.removeFlow f
  let outputTip ← tempOutputs.find f.source.port
  let dagOutputPort := s.2.numOutPorts
  let inner ← s.2.setOutput dagOutputPort outputTip
  let dag ← dag.addFlow ⟨pop, dagOutputPort⟩ f.target
  some (dag, inner)

/-- The merged operator. -/
def mergedClass (pop other : OperatorClass) (numInbetween numOutFlows : ℕ) : OperatorClass :=
  .concurrentExecute (pop.numInPorts + other.numInPorts - numInbetween) (pop.numOutPorts + numOutFlows)

/-- `pop` after the merge. -/
def mergedVertex (dag : Plan I) (pop other : ℕ) (inner : OpDag I) : Vertex (OpDag I) :=
  let cls := mergedClass (dag.op pop).operator.cls (dag.op other).operator.cls
    (inbetweenFlows dag pop other).length (otherOutFlows dag pop other).length
  ⟨{ (dag.op pop).operator with cls := cls }, some inner⟩

/-- The set of the target ports, in order. -/
def portSet (flows : List Flow) : List ℕ := (flows.map fun f => f.target.port).dedup.insertionSort (· ≤ ·)

/-- Merges `other` into `pop`. -/
def mergeInto (dag : Plan I) (pop other : ℕ) : Option (Plan I) := do
  let inner ← (dag.op pop).innerDag
  let otherInner ← (dag.op other).innerDag
  let inner ← moveInner otherInner inner
  let inner ← (inbetweenFlows dag pop other).foldlM (connectOutput otherInner.outputs) inner
  let inputs ← (dag.graph.inFlows other).foldlM (connectInput pop otherInner.inputs.entries)
    ⟨dag, inner, portSet (inbetweenFlows dag pop other)⟩
  let cut := (inbetweenFlows dag pop other).foldl PortedDag.removeFlow inputs.dag
  let consumers ← (otherOutFlows dag pop other).foldlM (connectConsumer pop otherInner.outputs) (cut, inputs.inner)
  (setOp consumers.1 pop (mergedVertex dag pop other consumers.2)).removeOperator other

/-! ### The work list -/

/-- The loop, between two iterations or while it merges operators into `current`. -/
structure MergeState (I : Type) where
  dag : Plan I
  pops : List ℕ
  current : Option ℕ

/-- The preceeding parallel operator, if there is one. -/
def precedingParallel (dag : Plan I) (pop : ℕ) : Option ℕ :=
  ((dag.graph.inFlows pop).find? fun f => isParallel dag f.source.op).map fun f => f.source.op

/-- Whether the merge is put off. -/
def postpones (topSort : TopologicalSort ℕ) (dag : Plan I) (pop other : ℕ) : Bool :=
  let topOrder := topSort dag.operators dag.edges
  (otherOutFlows dag pop other).any fun f => topOrder.idxOf pop < topOrder.idxOf f.target.op

/-- One step of the loop; a loop that is done stays as it is. -/
def step (topSort : TopologicalSort ℕ) (s : MergeState I) : Option (MergeState I) :=
  match s.current with
  | none =>
    match s.pops with
    | [] => some s
    | pop :: pops => some ⟨s.dag, pops, if pop ∈ s.dag.operators then some pop else none⟩
  | some pop =>
    match precedingParallel s.dag pop with
    | none => some { s with current := none }
    | some other =>
      if postpones topSort s.dag pop other then
        some ⟨s.dag, s.pops ++ [pop], none⟩
      else do
        let dag ← mergeInto s.dag pop other
        some { s with dag := dag }

/-- The parallel operators in topological order. -/
def start (topSort : TopologicalSort ℕ) (dag : Plan I) : MergeState I :=
  ⟨dag, (topSort dag.operators dag.edges).filter (isParallel dag), none⟩

/-- The state after a number of steps. -/
def steps (topSort : TopologicalSort ℕ) : ℕ → MergeState I → Option (MergeState I)
  | 0, s => some s
  | k + 1, s => (steps topSort k s).bind (step topSort)

/-! ### Constants -/

/-- Moves a constant that is broadcast to the workers into their plan. -/
def unbroadcast (dag : Plan I) (v : ℕ) : Option (Plan I) := do
  let outerFlow ← dag.graph.outFlow v
  let pop := outerFlow.target.op
  if isParallel dag pop then do
    let inner ← (dag.op pop).innerDag
    let param ← inner.input outerFlow.target.port
    guard ((inner.op param.op).operator.cls = .parameterLookup)
    let broadcast ← inner.graph.successor param.op
    if (inner.op broadcast).operator.cls = .broadcast then do
      let outer ← (dag.removeFlow outerFlow).removeOperator v
      -- constants have no inner DAG
      let inner := inner.addOperator v ⟨(dag.op v).operator, none⟩
      let tempInputs := inner.inputs.entries.filter fun e => e.2.op ≠ param.op
      let inner ← tempInputs.foldlM (fun dag e => dag.setInput e.1 e.2) { inner with inputs := ∅ }
      let outFlow ← inner.graph.outFlow broadcast
      let inner := inner.removeFlow outFlow
      let inFlow ← inner.graph.inFlow broadcast
      let inner ← (inner.removeFlow inFlow).removeOperator param.op
      let inner ← inner.removeOperator broadcast
      let inner ← inner.addFlow ⟨v, 0⟩ outFlow.target
      let operator := (dag.op pop).operator
      let cls := .concurrentExecute (operator.cls.numInPorts - 1) operator.cls.numOutPorts
      some (setOp outer pop ⟨{ operator with cls := cls }, some inner⟩)
    else
      some dag
  else
    some dag

/-! ### What the parts of a merge do -/

variable {pop other : ℕ} {f : Flow} {tempOutputs : Map ℕ FlowTip} {inner : OpDag I}
    {fs : List Flow}
  {α : Type} {dag dag' : Plan I}

variable {tempInputs : List (ℕ × FlowTip)}

theorem connectInput_eq_some {s s' : Rewiring I} : connectInput pop tempInputs s f = some s' ↔ ∃ e dag,
      (s.dag.removeFlow f).addFlow f.source ⟨pop, s.newPort⟩ = some dag ∧
      tempInputs[f.target.port]? = some e ∧ e.1 = f.target.port ∧ e.2.op ∈ s.inner.operators ∧
      s' = ⟨dag, { s.inner with inputs := (s.inner.inputs.erase s.newPort).emplace s.newPort ⟨e.2.op, 0⟩ },
        s.inputPorts.tail⟩ := by
  unfold connectInput
  simp only [bind_eq_bind, bind_eq_some_iff, guard_eq_some, PortedDag.setInput_eq_some]
  constructor
  · rintro ⟨dag, hdag, e, he, _, hport, inner, ⟨hop, rfl⟩, hs'⟩
    exact ⟨e, dag, hdag, he, hport, hop, (some.inj hs').symm⟩
  · rintro ⟨e, dag, hdag, he, hport, hop, rfl⟩
    exact ⟨dag, hdag, e, he, (), hport, _, ⟨hop, rfl⟩, rfl⟩

variable {s s' : Plan I × OpDag I}

theorem connectConsumer_eq_some :
    connectConsumer pop tempOutputs s f = some s' ↔ ∃ tip dag, tempOutputs.find f.source.port = some tip ∧
      tip.op ∈ s.2.operators ∧ (s.1.removeFlow f).addFlow ⟨pop, s.2.numOutPorts⟩ f.target = some dag ∧
      s' = (dag, { s.2 with outputs := s.2.outputs.assign s.2.numOutPorts tip }) := by
  unfold connectConsumer
  simp only [bind_eq_bind, bind_eq_some_iff, PortedDag.setOutput_eq_some]
  constructor
  · rintro ⟨tip, htip, inner, ⟨hop, rfl⟩, dag, hdag, hs'⟩
    exact ⟨tip, dag, htip, hop, hdag, (some.inj hs').symm⟩
  · rintro ⟨tip, dag, htip, hop, hdag, rfl⟩
    exact ⟨tip, htip, _, ⟨hop, rfl⟩, dag, hdag, rfl⟩

/-- The inner DAG after the lookup `tip` with the out-flow `g` has been replaced. -/
def replaceLookup (inner : OpDag I) (port : ℕ) (tip : FlowTip) (g : Flow) (output : FlowTip) :
    OpDag I :=
  { inner with
    operators := inner.operators.erase tip.op
    flows := inner.flows.erase g ++ [⟨output, g.target⟩]
    inputs := inner.inputs.erase port }

/-- What the assertions on a lookup that is replaced say. -/
structure Replaceable (tempOutputs : Map ℕ FlowTip) (inner : OpDag I) (f : Flow) (tip : FlowTip)
    (g : Flow) (output : FlowTip) : Prop where
  input : inner.input f.target.port = some tip
  outFlow : inner.graph.outFlow tip.op = some g
  lookup : (inner.op tip.op).operator.cls = .parameterLookup
  mem : tip.op ∈ inner.operators
  isolated : ((inner.resetInput f.target.port).removeFlow g).Isolated tip.op
  oldOutput : tempOutputs.find f.source.port = some output
  source : output.op ∈ inner.operators.erase tip.op
  target : g.target.op ∈ inner.operators.erase tip.op
  acyclic : (replaceLookup inner f.target.port tip g output).hasCycle = false

theorem connectOutput_eq_some {inner' : OpDag I} :
    connectOutput tempOutputs inner f = some inner' ↔ ∃ tip g output, Replaceable tempOutputs inner f tip g output ∧
      inner' = replaceLookup inner f.target.port tip g output := by
  unfold connectOutput
  simp only [bind_eq_bind, bind_eq_some_iff, guard_eq_some, PortedDag.removeOperator_eq_some]
  constructor
  · rintro ⟨tip, htip, g, hg, _, hcls, inner1, ⟨⟨hmem, hisolated⟩, rfl⟩, output, hout, hadd⟩
    obtain ⟨⟨hsrc, htgt, hcycle⟩, rfl⟩ := PortedDag.addFlow_eq_some.mp hadd
    exact ⟨tip, g, output, ⟨htip, hg, hcls, hmem, hisolated, hout, hsrc, htgt, hcycle⟩, rfl⟩
  · rintro ⟨tip, g, output, h, rfl⟩
    refine ⟨tip, h.input, g, h.outFlow, (), h.lookup, _, ⟨⟨h.mem, h.isolated⟩, rfl⟩, output, h.oldOutput, ?_⟩
    exact PortedDag.addFlow_eq_some.mpr ⟨⟨h.source, h.target, h.acyclic⟩, rfl⟩

/-- The inner DAG with the operators and flows of the other one. -/
structure Moved (inner otherInner moved : OpDag I) : Prop where
  operators : moved.operators = inner.operators ++ otherInner.operators
  new : ∀ v ∈ otherInner.operators, PortedDag.SameButId (otherInner.op v) (moved.op v)
  old : ∀ v ∉ otherInner.operators, moved.op v = inner.op v
  flows : moved.flows = inner.flows ++ otherInner.flows
  inputs : moved.inputs = inner.inputs
  outputs : moved.outputs = inner.outputs

theorem moveInner_eq_some {otherInner moved : OpDag I} (hnd : otherInner.operators.Nodup)
    (h : moveInner otherInner inner = some moved) : Moved inner otherInner moved := by
  obtain ⟨dags, hdags, hext⟩ := PortedDag.foldlM_moveOperator otherInner.operators
    { otherInner with flows := [], inputs := ∅, outputs := ∅ } inner rfl hnd rfl rfl rfl
  unfold moveInner at h
  simp only [hdags, bind_eq_bind, bind_some] at h
  rw [PortedDag.flows_foldlM_addFlow h]
  exact ⟨hext.operators, hext.new, hext.old, by rw [hext.flows], hext.inputs, hext.outputs⟩

/-- The inner DAG after the lookups have been replaced. -/
theorem foldlM_connectOutput {inner' : OpDag I}
    (h : fs.foldlM (connectOutput tempOutputs) inner = some inner') :
    inner'.op = inner.op ∧ inner'.outputs = inner.outputs ∧
      inner'.inputs.entries = inner.inputs.entries.filter (fun e => ∀ f ∈ fs, f.target.port ≠ e.1) ∧
      ∃ tips, List.Forall₂ (fun f tip => (f.target.port, tip) ∈ inner.inputs.entries) fs tips ∧
        inner'.operators = tips.foldl (fun vs tip => vs.erase tip.op) inner.operators := by
  induction fs generalizing inner with
  | nil =>
    cases h
    exact ⟨rfl, rfl, by simp, [], .nil, rfl⟩
  | cons f fs ih =>
    obtain ⟨inner1, hconnect, hrest⟩ := foldlM_cons_eq_some.mp h
    obtain ⟨tip, g, output, hreplace, rfl⟩ := connectOutput_eq_some.mp hconnect
    obtain ⟨hop, houts, hins, tips, hall, hops⟩ := ih hrest
    have hmem : (f.target.port, tip) ∈ inner.inputs.entries := by
      rw [← MultiMap.mem_equalRange, PortedDag.input_eq_some.mp hreplace.input]
      exact mem_singleton_self tip
    refine ⟨hop, houts, ?_, tip :: tips, .cons hmem (hall.imp fun f tip h => ?_), hops⟩
    · rw [hins]
      show (inner.inputs.entries.filter _).filter _ = _
      rw [List.filter_filter]
      refine filter_congr fun e _ => ?_
      rw [Bool.eq_iff_iff]
      simp only [Bool.and_eq_true, decide_eq_true_eq, forall_mem_cons]
      exact ⟨fun ⟨hrest, hne⟩ => ⟨hne.symm, hrest⟩, fun ⟨hne, hrest⟩ => ⟨hrest, hne.symm⟩⟩
    · exact (MultiMap.mem_erase.mp h).1

/-- Replacing one element. -/
theorem perm_erase_concat [DecidableEq α] {l base rest news : List α} {a new : α}
    (h : l.Perm (base ++ (a :: rest) ++ news)) : (l.erase a ++ [new]).Perm (base ++ rest ++ (news ++ [new])) := by
  have hmiddle : (base ++ (a :: rest) ++ news).Perm (a :: (base ++ rest ++ news)) := by
    rw [append_assoc, cons_append, append_assoc]
    exact perm_middle
  have herase := (h.trans hmiddle).erase a
  rw [erase_cons_head] at herase
  rw [← append_assoc]
  exact herase.append_right [new]

theorem perm_append_swap₁ (a b c : List α) : (a ++ b ++ c).Perm (a ++ c ++ b ++ []) := by
  rw [append_nil, append_assoc, append_assoc]
  exact List.Perm.append_left a perm_append_comm

theorem perm_append_swap₂ (a b c d : List α) : (a ++ (b ++ c) ++ ([] ++ d)).Perm (a ++ c ++ d ++ b) := by
  rw [nil_append, append_assoc, append_assoc, append_assoc, append_assoc]
  refine List.Perm.append_left a ?_
  rw [← append_assoc c d b]
  exact perm_append_comm

/-- The in-flows of the other operator with their new targets. -/
def movedInFlows (pop : ℕ) (fs : List Flow) (ports : List ℕ) : List Flow :=
  zipWith (fun f port => ⟨f.source, ⟨pop, port⟩⟩) fs ports

/-- The out-flows of the other operator with their new sources. -/
def movedOutFlows (pop : ℕ) (fs : List Flow) (ports : List ℕ) : List Flow :=
  zipWith (fun f port => ⟨⟨pop, port⟩, f.target⟩) fs ports

/-- The ports that are used for new inputs, given the free ones and the number of inputs. -/
def newPorts : List ℕ → ℕ → ℕ → List ℕ
  | _, _, 0 => []
  | free, degree, m + 1 => free.headD degree :: newPorts free.tail (degree + 1) m

/-- The moved inputs: each lookup at its new port. -/
def movedInputs (inputs : List (ℕ × FlowTip)) (ports : List ℕ) : List (ℕ × FlowTip) :=
  zipWith (fun e port => (port, ⟨e.2.op, 0⟩)) inputs ports

/-- The plans after the in-flows have been moved together with their lookups.  As long as the new
    ports are not in use, no input is overwritten. -/
theorem foldlM_connectInput {s s' : Rewiring I} (base news : List Flow)
    (h : fs.foldlM (connectInput pop tempInputs) s = some s')
    (hflows : s.dag.flows.Perm (base ++ fs ++ news)) :
    ∃ ports inputs, ports.length = fs.length ∧ s'.dag = { s.dag with flows := s'.dag.flows } ∧
      s'.dag.flows.Perm (base ++ (news ++ movedInFlows pop fs ports)) ∧
      s'.inner = { s.inner with inputs := s'.inner.inputs } ∧
      List.Forall₂ (fun f e => e ∈ tempInputs ∧ e.1 = f.target.port ∧ e.2.op ∈ s.inner.operators)
        fs inputs ∧
      ∀ new, new = newPorts s.inputPorts s.inner.inputs.entries.length fs.length →
        (s.inner.inputs.entries.map Prod.fst ++ new).Nodup → ports = new ∧
        s'.inner.inputs.entries.Perm (s.inner.inputs.entries ++ movedInputs inputs new) := by
  induction fs generalizing s news with
  | nil =>
    cases h
    refine ⟨[], [], rfl, rfl, by simpa [movedInFlows] using hflows, rfl, .nil, ?_⟩
    rintro _ rfl -
    exact ⟨rfl, by simp [movedInputs]⟩
  | cons f fs ih =>
    obtain ⟨s1, hs1, hrest⟩ := foldlM_cons_eq_some.mp h
    obtain ⟨e, dag, hdag, he, hport, hop, rfl⟩ := connectInput_eq_some.mp hs1
    obtain ⟨-, rfl⟩ := PortedDag.addFlow_eq_some.mp hdag
    obtain ⟨ports, inputs, hlen, hdag', hperm, hinner, hmoved, hnew⟩ :=
      ih _ hrest (perm_erase_concat hflows)
    refine ⟨s.newPort :: ports, e :: inputs, by simp [hlen], by rw [hdag']; rfl,
      by simpa [movedInFlows] using hperm, by rw [hinner],
      .cons ⟨mem_of_getElem? he, hport, hop⟩ hmoved, ?_⟩
    rintro _ rfl hnd
    -- the port is not in use, so nothing is overwritten
    have hfree : s.newPort ∉ s.inner.inputs.entries.map Prod.fst := fun hmem =>
      (nodup_append.mp hnd).2.2 _ hmem _ mem_cons_self rfl
    have hents : ((s.inner.inputs.erase s.newPort).emplace s.newPort ⟨e.2.op, 0⟩).entries.Perm
        (s.inner.inputs.entries ++ [(s.newPort, ⟨e.2.op, 0⟩)]) := by
      have herase : (s.inner.inputs.erase s.newPort).entries = s.inner.inputs.entries := by
        apply filter_eq_self.mpr
        intro e' he'
        exact decide_eq_true fun heq => hfree (heq ▸ mem_map_of_mem he')
      refine (emplaceList_perm _ _ _).trans ?_
      rw [herase]
      exact (perm_append_singleton _ _).symm
    have hdegree := hents.length_eq
    rw [length_append, length_singleton] at hdegree
    obtain ⟨rfl, hins⟩ := hnew (newPorts s.inputPorts.tail (s.inner.inputs.entries.length + 1) fs.length)
      (congrArg₂ (newPorts s.inputPorts.tail) hdegree.symm rfl) (by
        refine ((hents.map Prod.fst).append_right _).nodup_iff.mpr ?_
        rw [map_append, append_assoc]
        exact hnd)
    refine ⟨rfl, hins.trans ((hents.append_right _).trans ?_)⟩
    rw [append_assoc]
    exact .refl _

/-- The plans after the out-flows have been moved.  The new outputs are counted on from the old
    ones. -/
theorem foldlM_connectConsumer (base news : List Flow)
    (h : fs.foldlM (connectConsumer pop tempOutputs) s = some s')
    (hflows : s.1.flows.Perm (base ++ fs ++ news)) :
    ∃ ports tips, ports.length = fs.length ∧ s'.1 = { s.1 with flows := s'.1.flows } ∧
      s'.1.flows.Perm (base ++ (news ++ movedOutFlows pop fs ports)) ∧
      s'.2 = { s.2 with outputs := s'.2.outputs } ∧
      List.Forall₂ (fun f tip => tempOutputs.find f.source.port = some tip) fs tips ∧
      ∀ n, s.2.numOutPorts = n → (∀ e ∈ s.2.outputs.entries, e.1 < n) → ports = range' n fs.length ∧
        s'.2.outputs.entries = s.2.outputs.entries ++ (range' n fs.length).zip tips := by
  induction fs generalizing s news with
  | nil =>
    cases h
    exact ⟨[], [], rfl, rfl, by simpa [movedOutFlows] using hflows, rfl, .nil, by simp⟩
  | cons f fs ih =>
    obtain ⟨s1, hs1, hrest⟩ := foldlM_cons_eq_some.mp h
    obtain ⟨tip, dag, htip, -, hdag, rfl⟩ := connectConsumer_eq_some.mp hs1
    obtain ⟨-, rfl⟩ := PortedDag.addFlow_eq_some.mp hdag
    obtain ⟨ports, tips, hlen, hdag', hperm, hinner, htips, hnew⟩ :=
      ih _ hrest (perm_erase_concat hflows)
    refine ⟨s.2.numOutPorts :: ports, tip :: tips, by simp [hlen], by rw [hdag']; rfl,
      by simpa [movedOutFlows] using hperm, by rw [hinner], .cons htip htips, fun n hn hports => ?_⟩
    -- the new port is behind all others
    have hassign : (s.2.outputs.assign s.2.numOutPorts tip).entries = s.2.outputs.entries ++ [(n, tip)] :=
      hn ▸ assignList_of_lt (hn ▸ hports)
    have hdegree : (s.2.outputs.assign s.2.numOutPorts tip).entries.length = n + 1 := by
      rw [hassign, length_append, ← hn]
      rfl
    obtain ⟨rfl, hents⟩ := hnew (n + 1) hdegree fun e he => by
      rcases mem_append.mp (hassign ▸ he) with he | he
      · exact Nat.lt_succ_of_lt (hports e he)
      · rw [mem_singleton.mp he]
        exact Nat.lt_succ_self n
    rw [length_cons, range'_succ, hn, hents]
    refine ⟨rfl, ?_⟩
    show (s.2.outputs.assign s.2.numOutPorts tip).entries ++ _ = _
    rw [hassign, append_assoc]
    rfl

theorem foldl_removeFlow {Op : Type} {dag : PortedDag Op} (fs base : List Flow)
    (hflows : dag.flows.Perm (base ++ fs)) : fs.foldl PortedDag.removeFlow dag =
      { dag with flows := (fs.foldl PortedDag.removeFlow dag).flows } ∧
      (fs.foldl PortedDag.removeFlow dag).flows.Perm base := by
  induction fs generalizing dag with
  | nil => exact ⟨rfl, by simpa using hflows⟩
  | cons f fs ih =>
    have hrest : (dag.removeFlow f).flows.Perm (base ++ fs) := by
      have herase := (hflows.trans perm_middle).erase f
      rwa [erase_cons_head] at herase
    obtain ⟨hdag, hperm⟩ := ih hrest
    rw [foldl_cons]
    refine ⟨?_, hperm⟩
    rw [hdag]
    rfl

/-- The flows that a merge leaves alone. -/
def keptFlows (dag : Plan I) (other : ℕ) : List Flow :=
  dag.flows.filter fun f => f.source.op ≠ other ∧ f.target.op ≠ other

/-- The four kinds of flows. -/
theorem flows_perm (pop : ℕ) (hloop : ∀ f ∈ dag.flows, f.source.op = other → f.target.op ≠ other) :
    dag.flows.Perm (keptFlows dag other ++ dag.graph.inFlows other ++
      (inbetweenFlows dag pop other ++ otherOutFlows dag pop other)) := by
  have hout : (inbetweenFlows dag pop other ++ otherOutFlows dag pop other).Perm (dag.graph.outFlows other) := by
    have hpart := filter_append_perm (fun f : Flow => decide (f.target.op = pop)) (dag.graph.outFlows other)
    refine List.Perm.trans (List.Perm.of_eq ?_) hpart
    unfold inbetweenFlows otherOutFlows
    simp
  refine List.Perm.trans ?_ (List.Perm.append_left _ hout.symm)
  have hsrc := (filter_append_perm (fun f : Flow => decide (f.source.op ≠ other)) dag.flows).symm
  have htgt := (filter_append_perm (fun f : Flow => decide (f.target.op ≠ other))
    (dag.flows.filter fun f => f.source.op ≠ other)).symm
  refine hsrc.trans ?_
  refine List.Perm.append (htgt.trans (List.Perm.of_eq ?_)) (List.Perm.of_eq ?_)
  · rw [List.filter_filter, List.filter_filter]
    congr 1
    · refine filter_congr fun f _ => ?_
      simp [Bool.and_comm]
    · refine filter_congr fun f hf => ?_
      have := hloop f hf
      by_cases htgt : f.target.op = other
      · have hne : f.source.op ≠ other := fun hs => this hs htgt
        simp [htgt, hne]
      · simp [htgt]
  · unfold Dag.outFlows PortedDag.graph
    simp

/-- The plans in the course of a merge. -/
structure MergeRun (dag : Plan I) (pop other : ℕ) where
  inner : OpDag I
  otherInner : OpDag I
  moved : OpDag I
  connected : OpDag I
  inputs : Rewiring I
  consumers : Plan I × OpDag I
  innerDag : (dag.op pop).innerDag = some inner
  otherInnerDag : (dag.op other).innerDag = some otherInner
  moveInner : moveInner otherInner inner = some moved
  connectOutput : (inbetweenFlows dag pop other).foldlM (connectOutput otherInner.outputs) moved = some connected
  connectInput : (dag.graph.inFlows other).foldlM (connectInput pop otherInner.inputs.entries)
    ⟨dag, connected, portSet (inbetweenFlows dag pop other)⟩ = some inputs
  connectConsumer : (otherOutFlows dag pop other).foldlM (connectConsumer pop otherInner.outputs)
    ((inbetweenFlows dag pop other).foldl PortedDag.removeFlow inputs.dag, inputs.inner) = some consumers

/-- The outer plan before the absorbed operator is removed. -/
def MergeRun.plan (run : MergeRun dag pop other) : Plan I :=
  setOp run.consumers.1 pop (mergedVertex dag pop other run.consumers.2)

theorem mergeInto_eq_some : mergeInto dag pop other = some dag' ↔
    ∃ run : MergeRun dag pop other, run.plan.removeOperator other = some dag' := by
  unfold mergeInto
  simp only [bind_eq_bind, bind_eq_some_iff]
  constructor
  · rintro ⟨inner, h1, otherInner, h2, moved, h3, connected, h4, inputs, h5, consumers, h6, h7⟩
    exact ⟨⟨inner, otherInner, moved, connected, inputs, consumers, h1, h2, h3, h4, h5, h6⟩, h7⟩
  · rintro ⟨⟨inner, otherInner, moved, connected, inputs, consumers, h1, h2, h3, h4, h5, h6⟩, h7⟩
    exact ⟨inner, h1, otherInner, h2, moved, h3, connected, h4, inputs, h5, consumers, h6, h7⟩

/-- The flows after a merge. -/
def mergedFlows (dag : Plan I) (pop other : ℕ) (inPorts outPorts : List ℕ) : List Flow :=
  keptFlows dag other ++ (movedInFlows pop (dag.graph.inFlows other) inPorts ++
    movedOutFlows pop (otherOutFlows dag pop other) outPorts)

/-- What a merge changes in the outer plan. -/
structure Merged (dag dag' : Plan I) (pop other : ℕ) : Prop where
  operators : dag'.operators = dag.operators.erase other
  op : ∀ v ≠ pop, dag'.op v = dag.op v
  popOp : ∃ inner, dag'.op pop = mergedVertex dag pop other inner
  flows : ∃ inPorts outPorts, inPorts.length = (dag.graph.inFlows other).length ∧
    outPorts.length = (otherOutFlows dag pop other).length ∧
    dag'.flows.Perm (mergedFlows dag pop other inPorts outPorts)
  inputs : dag'.inputs = dag.inputs
  outputs : dag'.outputs = dag.outputs
  isolated : dag'.Isolated other

theorem mem_inbetweenFlows :
    f ∈ inbetweenFlows dag pop other ↔ f ∈ dag.flows ∧ f.source.op = other ∧ f.target.op = pop := by
  rw [inbetweenFlows, mem_filter, Dag.mem_outFlows, decide_eq_true_eq, and_assoc]
  rfl

theorem mem_otherOutFlows :
    f ∈ otherOutFlows dag pop other ↔ f ∈ dag.flows ∧ f.source.op = other ∧ f.target.op ≠ pop := by
  rw [otherOutFlows, mem_filter, Dag.mem_outFlows, decide_eq_true_eq, and_assoc]
  rfl

theorem mem_mergedFlows {inPorts outPorts : List ℕ} : f ∈ mergedFlows dag pop other inPorts outPorts ↔
    (f ∈ dag.flows ∧ f.source.op ≠ other ∧ f.target.op ≠ other) ∨
    (∃ (i : ℕ) (g : Flow) (port : ℕ), (dag.graph.inFlows other)[i]? = some g ∧
      inPorts[i]? = some port ∧ ⟨g.source, ⟨pop, port⟩⟩ = f) ∨
    ∃ (i : ℕ) (g : Flow) (port : ℕ), (otherOutFlows dag pop other)[i]? = some g ∧
      outPorts[i]? = some port ∧ ⟨⟨pop, port⟩, g.target⟩ = f := by
  unfold mergedFlows keptFlows movedInFlows movedOutFlows
  rw [mem_append, mem_append, mem_filter, decide_eq_true_eq, mem_zipWith, mem_zipWith]

/-- The flows before the inputs of the absorbed operator are moved. -/
theorem flows_perm_inFlows (pop : ℕ) (hloop : ∀ f ∈ dag.flows, f.source.op = other → f.target.op ≠ other) :
    dag.flows.Perm (keptFlows dag other ++ (inbetweenFlows dag pop other ++ otherOutFlows dag pop other) ++
      dag.graph.inFlows other ++ []) :=
  (flows_perm pop hloop).trans (perm_append_swap₁ _ _ _)

/-- The plans once the inputs of the absorbed operator have been moved to the ports `inPorts`. -/
theorem MergeRun.flows_perm (run : MergeRun dag pop other) {inPorts : List ℕ}
    (hflows : run.inputs.dag.flows.Perm (keptFlows dag other ++
      (inbetweenFlows dag pop other ++ otherOutFlows dag pop other) ++
      ([] ++ movedInFlows pop (dag.graph.inFlows other) inPorts))) :
    ∃ outPorts tips, outPorts.length = (otherOutFlows dag pop other).length ∧
      run.consumers.1 = { run.inputs.dag with flows := run.consumers.1.flows } ∧
      run.consumers.1.flows.Perm (mergedFlows dag pop other inPorts outPorts) ∧
      run.consumers.2 = { run.inputs.inner with outputs := run.consumers.2.outputs } ∧
      List.Forall₂ (fun f tip => run.otherInner.outputs.find f.source.port = some tip)
        (otherOutFlows dag pop other) tips ∧
      ∀ n, run.inputs.inner.numOutPorts = n → (∀ e ∈ run.inputs.inner.outputs.entries, e.1 < n) →
        outPorts = range' n (otherOutFlows dag pop other).length ∧
        run.consumers.2.outputs.entries = run.inputs.inner.outputs.entries ++
          (range' n (otherOutFlows dag pop other).length).zip tips := by
  obtain ⟨hcut, hflows'⟩ := foldl_removeFlow (inbetweenFlows dag pop other)
    (keptFlows dag other ++ otherOutFlows dag pop other ++ movedInFlows pop (dag.graph.inFlows other) inPorts)
    (hflows.trans (perm_append_swap₂ _ _ _ _))
  obtain ⟨outPorts, tips, hout, hdag, hrest⟩ := foldlM_connectConsumer _ _ run.connectConsumer hflows'
  exact ⟨outPorts, tips, hout, hdag.trans (by rw [hcut]), hrest⟩

/-- Apart from the flows, the plan is the old one. -/
theorem MergeRun.outer (run : MergeRun dag pop other)
    (hloop : ∀ f ∈ dag.flows, f.source.op = other → f.target.op ≠ other) :
    ∃ inPorts outPorts, inPorts.length = (dag.graph.inFlows other).length ∧
      outPorts.length = (otherOutFlows dag pop other).length ∧
      run.consumers.1 = { dag with flows := run.consumers.1.flows } ∧
      run.consumers.1.flows.Perm (mergedFlows dag pop other inPorts outPorts) := by
  obtain ⟨inPorts, -, hin, hdag1, hflows1, -⟩ :=
    foldlM_connectInput _ [] run.connectInput (flows_perm_inFlows pop hloop)
  obtain ⟨outPorts, -, hout, hdag2, hflows2, -⟩ := run.flows_perm hflows1
  exact ⟨inPorts, outPorts, hin, hout, hdag2.trans (by rw [hdag1]), hflows2⟩

theorem MergeRun.merged (run : MergeRun dag pop other) (hrun : run.plan.removeOperator other = some dag')
    (hloop : ∀ f ∈ dag.flows, f.source.op = other → f.target.op ≠ other) : Merged dag dag' pop other := by
  obtain ⟨inPorts, outPorts, hin, hout, hdag, hflows⟩ := run.outer hloop
  obtain ⟨⟨-, hisolated⟩, rfl⟩ := PortedDag.removeOperator_eq_some.mp hrun
  refine ⟨?_, fun v hv => ?_, ⟨run.consumers.2, op_setOp_self _⟩, ⟨inPorts, outPorts, hin, hout, hflows⟩, ?_, ?_,
    hisolated⟩
  · show run.consumers.1.operators.erase other = _
    rw [hdag]
  · show (setOp run.consumers.1 pop _).op v = dag.op v
    rw [op_setOp_of_ne hv, hdag]
  · show run.consumers.1.inputs = _
    rw [hdag]
  · show run.consumers.1.outputs = _
    rw [hdag]

end Jitq.Optimize

import Jitq.Optimize.MergeWires

namespace Jitq.Optimize

open SortedMap Partial Graphs List Option

/-! # Runs of the loop of `MergeParallelOperators`

What holds of one merge is carried over to all merges of a run.

* `MergeState.Mergeable` — the next merge fills the ports, and the plan does not refer to the operator
  that is absorbed;
* `exists_steps` — as long as this holds, no assertion fails;
* `merge_preserves` — the merges of such a run keep the meaning of the plan;
* `merge_terminates` — such a run ends if the plan is unblocked. -/

variable {I : Type}

/-- The plan itself has the operator neither as an input nor as an output. -/
def Unreferenced (dag : Plan I) (v : ℕ) : Prop :=
  (∀ e ∈ dag.inputs.entries, e.2.op ≠ v) ∧ ∀ e ∈ dag.outputs.entries, e.2.op ≠ v

/-- What a merge leaves as it was: the outer and the inner plan have no cycle, all operators of the two
    inner DAGs apart from the lookups in between are those of the new one, with a new id at most, and the
    wires bypass these lookups. -/
structure MergePreserves (dag dag' : Plan I) (pop other : ℕ)
    (inner otherInner inner' : OpDag I) : Prop where
  innerDag : (dag.op pop).innerDag = some inner
  otherInnerDag : (dag.op other).innerDag = some otherInner
  mergedDag : (dag'.op pop).innerDag = some inner'
  outerGraph : OuterGraph dag'
  acyclic : inner'.Acyclic
  operators : ∀ v, v ∈ inner'.operators ↔ (v ∈ inner.operators ∨ v ∈ otherInner.operators) ∧
    ¬ Replaced inner (inbetweenFlows dag pop other) v
  old : ∀ v ∈ inner.operators, inner'.op v = inner.op v
  new : ∀ v ∈ otherInner.operators, PortedDag.SameButId (otherInner.op v) (inner'.op v)
  wires : ∀ a b, Wire dag' a b ↔ Bypassed (Replaced inner (inbetweenFlows dag pop other)) (Wire dag) a b

variable (topSort : TopologicalSort ℕ)

/-- If the state is about to merge two operators, then the plan does not refer to the one that is
    absorbed. -/
def MergeState.AbsorbsUnreferenced
    (s : MergeState I) : Prop :=
  ∀ pop other, s.current = some pop → precedingParallel s.dag pop = some other →
    postpones topSort s.dag pop other = false → Unreferenced s.dag other

/-- If the state is about to merge two operators, then the merge fills the ports and the plan does not
    refer to the operator that is absorbed. -/
def MergeState.Mergeable (s : MergeState I) : Prop :=
  ∀ pop other, s.current = some pop → precedingParallel s.dag pop = some other →
    postpones topSort s.dag pop other = false →
    Optimize.FillsPorts s.dag pop other ∧ Unreferenced s.dag other

section Runs

variable {topSort : TopologicalSort ℕ} {dag : Plan I} {s : MergeState I}

/-- The operators that the loop is about to merge. -/
theorem exists_workersPair (hinv : LoopInv s) (hplan : WorkersConnected s.dag) {pop other : ℕ}
    (hcur : s.current = some pop) (hprec : precedingParallel s.dag pop = some other) :
    ∃ inner otherInner, WorkersPair s.dag pop other inner otherInner := by
  obtain ⟨hedge, hother⟩ := precedingParallel_eq_some hprec
  obtain ⟨inner, otherInner, hpair⟩ := exists_mergePair hplan.distinct hplan.ports
    ⟨hedge, hother, (hinv.current pop hcur).2⟩
  exact ⟨inner, otherInner, hpair, hplan⟩

section Merge

variable (hsort : IsTopologicalSort topSort) (hinv : LoopInv s) (hplan : WorkersConnected s.dag)
  {pop other : ℕ} (hcur : s.current = some pop)
  (hprec : precedingParallel s.dag pop = some other)
  (hpost : postpones topSort s.dag pop other = false)

include hsort hinv hplan hcur hprec hpost

/-- A merge of the loop fails only because of a reference to the absorbed operator. -/
theorem exists_mergeInto_iff :
    (∃ dag', mergeInto s.dag pop other = some dag') ↔ Unreferenced s.dag other := by
  obtain ⟨inner, otherInner, h⟩ := exists_workersPair hinv hplan hcur hprec
  exact h.exists_mergeInto fun t ht hne =>
    not_reaches_of_not_postpones hsort hinv.graph hpost ht hne

/-- One merge of the loop. -/
theorem merge_preserves_iff :
    (∃ dag' inner otherInner inner', mergeInto s.dag pop other = some dag' ∧
      MergePreserves s.dag dag' pop other inner otherInner inner') ↔ Unreferenced s.dag other := by
  rw [← exists_mergeInto_iff hsort hinv hplan hcur hprec hpost]
  constructor
  · rintro ⟨dag', -, -, -, hmerge, -⟩
    exact ⟨dag', hmerge⟩
  · rintro ⟨dag', hmerge⟩
    obtain ⟨inner, otherInner, h⟩ := exists_workersPair hinv hplan hcur hprec
    obtain ⟨inner', hnew⟩ := h.rewired hmerge
    have hgraph := hnew.ports.merged.outerGraph hinv.graph h.flow.1 fun t ht hne =>
      not_reaches_of_not_postpones hsort hinv.graph hpost ht hne
    exact ⟨dag', inner, otherInner, inner', hmerge, h.innerDag, h.otherInnerDag, hnew.innerDag,
      hgraph, hnew.acyclic, hnew.operators, hnew.ports.old, hnew.ports.new, fun a b => hnew.wire_iff h⟩

end Merge

/-- The loop goes on if the next merge succeeds. -/
theorem exists_step (h : ∀ pop other, s.current = some pop → precedingParallel s.dag pop = some other →
    postpones topSort s.dag pop other = false → ∃ dag', mergeInto s.dag pop other = some dag') :
    ∃ s', step topSort s = some s' := by
  unfold step
  split
  · split
    · exact ⟨_, rfl⟩
    · exact ⟨_, rfl⟩
  · next pop hcur =>
    split
    · exact ⟨_, rfl⟩
    · next other hprec =>
      split
      · exact ⟨_, rfl⟩
      · next hpost =>
        obtain ⟨dag', hmerge⟩ := h pop other hcur hprec (by simpa using hpost)
        rw [hmerge]
        exact ⟨_, rfl⟩

/-- The loop does not fail, as long as its merges fill the ports and absorb no operator that the plan
    refers to. -/
theorem exists_steps (hsort : IsTopologicalSort topSort) (hdag : WorkersConnected dag) (k : ℕ)
    (hmergeable : ∀ j < k, ∀ s, steps topSort j (start topSort dag) = some s →
      s.Mergeable topSort) :
    ∃ s, steps topSort k (start topSort dag) = some s ∧ LoopInv s ∧
      WorkersConnected s.dag := by
  induction k with
  | zero => exact ⟨_, rfl, LoopInv.start hsort hdag.distinct.graph, hdag⟩
  | succ k ih =>
    obtain ⟨s, hs, hinv, hplan⟩ := ih fun j hj => hmergeable j (Nat.lt_succ_of_lt hj)
    have hcond := hmergeable k (Nat.lt_succ_self k) s hs
    obtain ⟨s', hstep⟩ := exists_step fun pop other hc hp hn =>
      (exists_mergeInto_iff hsort hinv hplan hc hp hn).mpr (hcond pop other hc hp hn).2
    have hsteps : steps topSort (k + 1) (start topSort dag) = some s' :=
      bind_eq_some_iff.mpr ⟨s, hs, hstep⟩
    have hkind := stepKind_of_step hstep
    have hinv' := hinv.step hsort hkind
    refine ⟨s', hsteps, hinv', ?_⟩
    cases hkind with
    | finished _ | take _ _ | drop _ _ | postpone _ _ _ => exact hplan
    | @merge pop other dag' hcur hprec hpost hmerge =>
      obtain ⟨inner, otherInner, hpair⟩ := exists_workersPair hinv hplan hcur hprec
      obtain ⟨inner', hnew⟩ := hpair.rewired hmerge
      exact hnew.workersConnected hpair hmerge hinv'.graph
        (hcond pop other hcur hprec hpost).1

/-- A state whose next step does not fail does not absorb an operator that the plan refers to. -/
theorem absorbsUnreferenced_of_step (hsort : IsTopologicalSort topSort) (hinv : LoopInv s)
    (hplan : WorkersConnected s.dag) (hstep : step topSort s ≠ none) :
    s.AbsorbsUnreferenced topSort := by
  intro pop other hcur hprec hpost
  rw [← exists_mergeInto_iff hsort hinv hplan hcur hprec hpost]
  obtain ⟨s', hs'⟩ := ne_none_iff_exists'.mp hstep
  cases stepKind_of_step hs' with
  | finished hfin => exact absurd (hfin.2.symm.trans hcur) nofun
  | take hnone _ => exact absurd (hnone.symm.trans hcur) nofun
  | drop hcur' hnone =>
    cases hcur'.symm.trans hcur
    exact absurd (hnone.symm.trans hprec) nofun
  | postpone hcur' hprec' hpost' =>
    cases hcur'.symm.trans hcur
    cases hprec'.symm.trans hprec
    exact absurd (hpost'.symm.trans hpost) nofun
  | merge hcur' hprec' _ hmerge =>
    cases hcur'.symm.trans hcur
    cases hprec'.symm.trans hprec
    exact ⟨_, hmerge⟩

/-- If all merges fill the ports, then the loop fails only because of a reference to an absorbed
    operator. -/
theorem steps_ne_none_iff (hsort : IsTopologicalSort topSort) (hdag : WorkersConnected dag)
    (hfills : ∀ k s, steps topSort k (start topSort dag) = some s →
      s.FillsPorts topSort) :
    (∀ k, steps topSort k (start topSort dag) ≠ none) ↔
      ∀ k s, steps topSort k (start topSort dag) = some s →
        s.AbsorbsUnreferenced topSort := by
  have hmergeable {k : ℕ} (h : ∀ j < k, ∀ s, steps topSort j (start topSort dag) =
      some s → s.AbsorbsUnreferenced topSort) :=
    exists_steps hsort hdag k fun j hj s hs pop other hcur hprec hpost =>
      ⟨hfills j s hs pop other hcur hprec hpost,
        h j hj s hs pop other hcur hprec hpost⟩
  constructor
  · intro hsteps k
    induction k using Nat.strong_induction_on with
    | _ k ih =>
      intro s hs
      obtain ⟨s', hs', hinv, hplan⟩ := hmergeable ih
      obtain rfl := some.inj (hs.symm.trans hs')
      refine absorbsUnreferenced_of_step hsort hinv hplan fun hnone => hsteps (k + 1) ?_
      show (steps topSort k (start topSort dag)).bind _ = none
      rw [hs, bind_some, hnone]
  · intro h k hnone
    obtain ⟨s, hs, -⟩ := hmergeable fun j (_ : j < k) => h j
    rw [hs] at hnone
    cases hnone

end Runs

/-- **Merging keeps the meaning of a plan.**  In every run of the loop whose merges so far have filled
    the ports and absorbed no operator that the plan refers to, no assertion has failed and the outer
    plan has no cycle.  The next merge succeeds and keeps the meaning of the plan exactly if the plan
    does not refer to the absorbed operator. -/
theorem merge_preserves (dag : Plan I) (hdag : WorkersConnected dag)
    (topSort : TopologicalSort ℕ) (hsort : IsTopologicalSort topSort)
    (k : ℕ)
    (hmergeable : ∀ j < k, ∀ s, steps topSort j (start topSort dag) = some s →
      s.Mergeable topSort) :
    ∃ s, steps topSort k (start topSort dag) = some s ∧ OuterGraph s.dag ∧
      ∀ pop other, s.current = some pop → precedingParallel s.dag pop = some other →
        postpones topSort s.dag pop other = false →
        ((∃ dag' inner otherInner inner', mergeInto s.dag pop other = some dag' ∧
          MergePreserves s.dag dag' pop other inner otherInner inner') ↔ Unreferenced s.dag other) := by
  obtain ⟨s, hs, hinv, hplan⟩ := exists_steps hsort hdag k hmergeable
  exact ⟨s, hs, hinv.graph, fun pop other hc hp hn => merge_preserves_iff hsort hinv hplan hc hp hn⟩

/-- **The loop ends.**  If the queue becomes empty for every topological order, then the plan is
    unblocked.  If it is unblocked, then for every topological order the queue becomes empty exactly if
    no assertion fails; and if the workers are connected as the merges expect it and all merges fill the
    ports, then none fails exactly if no merge absorbs an operator that the plan refers to. -/
theorem merge_terminates (dag : Plan I) (hgraph : OuterGraph dag) :
    ((∀ sort, IsTopologicalSort sort → Terminates sort dag) → Unblocked dag) ∧
      (Unblocked dag → ∀ sort, IsTopologicalSort sort →
        (Terminates sort dag ↔ ∀ k, steps sort k (start sort dag) ≠ none) ∧
        (WorkersConnected dag → (∀ k s, steps sort k (start sort dag) = some s → s.FillsPorts sort) →
          (Terminates sort dag ↔
            ∀ k s, steps sort k (start sort dag) = some s → s.AbsorbsUnreferenced sort))) := by
  refine ⟨unblocked_of_terminates hgraph, fun hunblocked sort hsort => ?_⟩
  have hiff := terminates_iff (halts_of_unblocked hsort (LoopInv.start hsort hgraph) hunblocked)
  exact ⟨hiff, fun hdag hfills => hiff.trans (steps_ne_none_iff hsort hdag hfills)⟩

/-! ### Two plans -/

/-- The same with conditions that can be evaluated. -/
theorem workersConnected_of {dag : Plan I} (hdist : DistinctOperators dag)
    (hports : AllPortsConsistent dag)
    (hflows : ∀ v ∈ dag.operators, ∀ inner ∈ (dag.op v).innerDag, ∀ g ∈ inner.flows,
      g.source.op ∈ inner.operators ∧ g.target.op ∈ inner.operators ∧ g.source.op < g.target.op)
    (hins : ∀ v ∈ dag.operators, ∀ inner ∈ (dag.op v).innerDag, ∀ e ∈ inner.inputs.entries,
      (inner.graph.outFlows e.2.op).length = 1 ∧ (∀ g ∈ inner.flows, g.target.op ≠ e.2.op) ∧
        ∀ o ∈ inner.outputs.entries, o.2.op ≠ e.2.op)
    (houts : ∀ v ∈ dag.operators, ∀ inner ∈ (dag.op v).innerDag, ∀ o ∈ inner.outputs.entries,
      o.2.op ∈ inner.operators ∧ o.1 < inner.numOutPorts)
    (hread : ∀ f ∈ dag.flows, ∀ inner ∈ (dag.op f.source.op).innerDag,
      (inner.outputs.find f.source.port).isSome) :
    WorkersConnected dag := by
  refine ⟨hdist, hports, fun v hv _ inner hinner => ?_, fun f hf _ inner hinner =>
    isSome_iff_exists.mp (hread f hf inner hinner)⟩
  replace hflows := hflows v hv inner hinner
  replace hins := hins v hv inner hinner
  replace houts := houts v hv inner hinner
  exact {
    closed := ⟨hdist.nodup v hv inner hinner, fun g hg => (hflows g hg).1,
      fun g hg => (hflows g hg).2.1, hdist.closed v hv inner hinner, fun o ho => (houts o ho).1⟩
    acyclic := acyclic_of_lt id fun e he => by
      obtain ⟨g, hg, rfl⟩ := mem_map.mp he
      exact (hflows g hg).2.2
    consumer := fun e he => length_eq_one_iff.mp (hins e he).1
    source := fun e he => (hins e he).2.1
    noOutput := fun e he => (hins e he).2.2
    outputPorts := fun o ho => (houts o ho).2 }

theorem workersConnected_workersBehindWorkers : WorkersConnected workersBehindWorkers :=
  workersConnected_of distinctOperators_workersBehindWorkers (by decide) (by decide) (by decide)
    (by decide) (by decide)

/-- The merge of workers into workers behind them, after one step of the loop. -/
theorem merge_preserves_workersBehindWorkers :
    ∃ dag' inner otherInner inner', mergeInto workersBehindWorkers 2 1 = some dag' ∧
      MergePreserves workersBehindWorkers dag' 2 1 inner otherInner inner' := by
  obtain ⟨s, hs, -, hmerges⟩ := merge_preserves workersBehindWorkers
    workersConnected_workersBehindWorkers sinksFirst isTopologicalSort_sinksFirst 1
    fun j hj s hs pop other hcur => by
      obtain rfl : j = 0 := by omega
      cases hs
      cases hcur
  obtain rfl := Option.some.inj (steps_workersBehindWorkers.symm.trans hs)
  exact (hmerges 2 1 rfl rfl (not_postpones_of_nil (by decide) _)).mpr ⟨by decide, by decide⟩

/-- The states that the loop goes through: before the merge, at the merge, and behind it. -/
theorem reached_workersBehindWorkers (k : ℕ) {s : MergeState Empty}
    (hs : steps sinksFirst k (start sinksFirst workersBehindWorkers) = some s) :
    s = ⟨workersBehindWorkers, [2, 1], none⟩ ∨ s = ⟨workersBehindWorkers, [1], some 2⟩ ∨
      (s.current = none ∨ s.current = some 2) ∧ (s.pops = [] ∨ s.pops = [1]) ∧
        precedingParallel s.dag 2 = none ∧ 1 ∉ s.dag.operators := by
  induction k generalizing s with
  | zero =>
    cases hs
    exact .inl start_workersBehindWorkers
  | succ k ih =>
    obtain ⟨s1, hs1, hstep⟩ := bind_eq_some_iff.mp hs
    obtain rfl | rfl | ⟨hcur, hpops, hnone, hmem⟩ := ih hs1
    · cases hstep
      exact .inr (.inl rfl)
    · refine .inr (.inr ?_)
      have hpost : postpones sinksFirst workersBehindWorkers 2 1 = false :=
        not_postpones_of_nil (by decide) _
      have hprec : precedingParallel workersBehindWorkers 2 = some 1 := by decide
      have hmerged : ∀ dag ∈ mergeInto workersBehindWorkers 2 1,
          precedingParallel dag 2 = none ∧ 1 ∉ dag.operators := by decide +kernel
      simp only [step, hprec, hpost] at hstep
      rw [if_neg Bool.false_ne_true] at hstep
      obtain ⟨dag, hdag, hs⟩ := bind_eq_some_iff.mp hstep
      cases hs
      exact ⟨.inr rfl, .inr rfl, hmerged dag hdag⟩
    · refine .inr (.inr ?_)
      obtain ⟨dag, pops, current⟩ := s1
      obtain rfl | rfl := hcur
      · obtain rfl | rfl := hpops
        · cases hstep
          exact ⟨.inl rfl, .inl rfl, hnone, hmem⟩
        · cases hstep
          exact ⟨.inl (if_neg hmem), .inl rfl, hnone, hmem⟩
      · simp only [step, hnone] at hstep
        cases hstep
        exact ⟨.inl rfl, hpops, hnone, hmem⟩

/-- The only merge of the loop is the one at its second step. -/
theorem merge_workersBehindWorkers (k : ℕ) {s : MergeState Empty} {pop other : ℕ}
    (hs : steps sinksFirst k (start sinksFirst workersBehindWorkers) = some s)
    (hcur : s.current = some pop) (hprec : precedingParallel s.dag pop = some other) :
    s.dag = workersBehindWorkers ∧ pop = 2 ∧ other = 1 := by
  obtain rfl | rfl | ⟨hnone | hsome, -, hprec', -⟩ := reached_workersBehindWorkers k hs
  · cases hcur
  · cases hcur
    cases hprec
    exact ⟨rfl, rfl, rfl⟩
  · cases hnone.symm.trans hcur
  · cases hsome.symm.trans hcur
    cases hprec'.symm.trans hprec

/-- The queue of workers behind workers becomes empty. -/
theorem merge_terminates_workersBehindWorkers : OuterGraph workersBehindWorkers ∧
    Unblocked workersBehindWorkers ∧ Terminates sinksFirst workersBehindWorkers := by
  have hgraph : OuterGraph workersBehindWorkers := outerGraph_of_lt (by decide) (by decide)
  obtain ⟨-, hiff⟩ := (merge_terminates workersBehindWorkers hgraph).2 unblocked_workersBehindWorkers
    sinksFirst isTopologicalSort_sinksFirst
  refine ⟨hgraph, unblocked_workersBehindWorkers, (hiff workersConnected_workersBehindWorkers ?_).mpr ?_⟩
  · intro k s hs pop other hcur hprec _
    obtain ⟨hdag, rfl, rfl⟩ := merge_workersBehindWorkers k hs hcur hprec
    rw [hdag]
    exact fun i hle hlt => absurd (hle.trans_lt hlt) (by decide)
  · intro k s hs pop other hcur hprec _
    obtain ⟨hdag, rfl, rfl⟩ := merge_workersBehindWorkers k hs hcur hprec
    rw [hdag]
    exact ⟨by decide, by decide⟩

/-- Workers with four inputs, two of which come from workers with one input and one from workers with
    two. -/
def mergedTwice : Plan Empty where
  operators := [0, 1, 2, 3, 4, 5, 6]
  op
    | 4 => ⟨⟨4, none, "", .concurrentExecute 1 1⟩, some (workers 10 1 .map)⟩
    | 5 => ⟨⟨5, none, "", .concurrentExecute 2 1⟩, some (workers 20 2 .cartesian)⟩
    | 6 => ⟨⟨6, none, "", .concurrentExecute 4 1⟩, some (workers 30 4 .cartesian)⟩
    | v => ⟨⟨v, none, "", .constantTuple ["1"]⟩, none⟩
  flows := [⟨⟨0, 0⟩, ⟨4, 0⟩⟩, ⟨⟨1, 0⟩, ⟨5, 0⟩⟩, ⟨⟨2, 0⟩, ⟨5, 1⟩⟩, ⟨⟨4, 0⟩, ⟨6, 0⟩⟩, ⟨⟨4, 0⟩, ⟨6, 1⟩⟩,
    ⟨⟨3, 0⟩, ⟨6, 2⟩⟩, ⟨⟨5, 0⟩, ⟨6, 3⟩⟩]
  inputs := ∅
  outputs := (∅ : SortedMap.Map ℕ FlowTip).assign 0 ⟨6, 0⟩

/-- An operator that all others lead to is listed first. -/
theorem exists_start {dag : Plan I} {topSort : TopologicalSort ℕ}
    (hsort : IsTopologicalSort topSort) (hgraph : OuterGraph dag) (hv : v ∈ dag.operators)
    (hpar : isParallel dag v = true)
    (hreach : ∀ u ∈ dag.operators, u ≠ v → Reaches dag.edges u v) :
    ∃ pops, start topSort dag = ⟨dag, v :: pops, none⟩ := by
  obtain ⟨hperm, -⟩ := hsort dag.operators dag.edges hgraph.nodup hgraph.closed hgraph.acyclic
  cases hsorted : topSort dag.operators dag.edges with
  | nil =>
    rw [hsorted] at hperm
    rw [nil_perm.mp hperm] at hv
    cases hv
  | cons u rest =>
    have hu : u = v := by
      by_contra hne
      have hmem : u ∈ dag.operators := hperm.mem_iff.mp (hsorted ▸ mem_cons_self)
      have hlt := hsort.idxOf_lt hgraph.nodup hgraph.closed hgraph.acyclic (hreach u hmem hne)
      rw [hsorted, idxOf_cons_self] at hlt
      exact absurd hlt (Nat.not_lt_zero _)
    refine ⟨rest.filter (isParallel dag), ?_⟩
    rw [start, hsorted, hu, filter_cons_of_pos hpar]

theorem workersConnected_mergedTwice : WorkersConnected mergedTwice :=
  workersConnected_of ⟨outerGraph_of_lt (by decide) (by decide), by decide, by decide,
    by unfold List.Disjoint; decide, by unfold List.Disjoint; decide⟩ (by decide) (by decide) (by decide)
    (by decide) (by decide)

/-- The first merge leaves a gap: the merged workers have three inputs, at the ports 0, 2 and 3.  When the
    next two inputs come, the port 3 is given out twice, and the first of them is lost. -/
theorem mergedTwice_loses_input : WorkersConnected mergedTwice ∧ ∃ s dag',
    steps sinksFirst 2 (start sinksFirst mergedTwice) = some s ∧ s.current = some 6 ∧
    precedingParallel s.dag 6 = some 5 ∧ postpones sinksFirst s.dag 6 5 = false ∧ Unreferenced s.dag 5 ∧
    mergeInto s.dag 6 5 = some dag' ∧ Wire s.dag ⟨1, 0⟩ ⟨20, 0⟩ ∧ ¬ Wire dag' ⟨1, 0⟩ ⟨20, 0⟩ ∧
    ∀ inner otherInner inner', ¬ MergePreserves s.dag dag' 6 5 inner otherInner inner' := by
  have hplan := workersConnected_mergedTwice
  have hreach : ∀ u ∈ mergedTwice.operators, u ≠ 6 → Reaches mergedTwice.edges u 6 := by
    have hsteps : ∀ u ∈ mergedTwice.operators, u ≠ 6 → (u, 6) ∈ mergedTwice.edges ∨
        ∃ w ∈ mergedTwice.operators, (u, w) ∈ mergedTwice.edges ∧ (w, 6) ∈ mergedTwice.edges := by decide
    intro u hu hne
    rcases hsteps u hu hne with hdirect | ⟨w, -, hfirst, hsecond⟩
    · exact .single hdirect
    · exact .head hfirst (.single hsecond)
  obtain ⟨pops, hstart⟩ := exists_start isTopologicalSort_sinksFirst hplan.distinct.graph (by decide)
    rfl hreach
  -- both merges, and what feeds the lookup before and after the second one
  have heval : ∃ dag ∈ mergeInto mergedTwice 6 4, precedingParallel dag 6 = some 5 ∧
      (otherOutFlows dag 6 5).isEmpty = true ∧
      ((∀ e ∈ dag.inputs.entries, e.2.op ≠ 5) ∧ ∀ e ∈ dag.outputs.entries, e.2.op ≠ 5) ∧
      Wire dag ⟨1, 0⟩ ⟨20, 0⟩ ∧
      (∀ inner ∈ (dag.op 6).innerDag, ¬ Replaced inner (inbetweenFlows dag 6 5) 1 ∧
        ¬ Replaced inner (inbetweenFlows dag 6 5) 20) ∧
      ∃ dag' ∈ mergeInto dag 6 5, ¬ Wire dag' ⟨1, 0⟩ ⟨20, 0⟩ := by decide +kernel
  obtain ⟨dag, hdag, hprec, hnone, hunreferenced, hbefore, hkept, dag', hdag', hafter⟩ := heval
  have hsteps : steps sinksFirst 2 (start sinksFirst mergedTwice) = some ⟨dag, pops, some 6⟩ := by
    have hpost : postpones sinksFirst mergedTwice 6 4 = false := not_postpones_of_nil (by decide) _
    have hprec : precedingParallel mergedTwice 6 = some 4 := by decide
    have hfirst : step sinksFirst ⟨mergedTwice, 6 :: pops, none⟩ =
        some ⟨mergedTwice, pops, some 6⟩ := rfl
    have hsecond : step sinksFirst ⟨mergedTwice, pops, some 6⟩ = some ⟨dag, pops, some 6⟩ := by
      simp only [step, hprec, hpost, Option.mem_def.mp hdag]
      rfl
    rw [hstart]
    show ((some ⟨mergedTwice, 6 :: pops, none⟩ : Option (MergeState Empty)).bind
      (step sinksFirst)).bind
      (step sinksFirst) = _
    rw [Option.bind_some, hfirst, Option.bind_some, hsecond]
  refine ⟨hplan, ⟨dag, pops, some 6⟩, dag', hsteps, rfl, hprec,
    not_postpones_of_nil (List.isEmpty_iff.mp hnone) _, hunreferenced, hdag', hbefore, hafter,
    fun inner otherInner inner' hpreserves => hafter ?_⟩
  obtain ⟨hsrc, htgt⟩ := hkept inner hpreserves.innerDag
  exact (hpreserves.wires _ _).mpr (.inl ⟨hbefore, hsrc, htgt⟩)

end Jitq.Optimize

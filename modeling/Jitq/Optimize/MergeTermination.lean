import Jitq.Lib.Contraction
import Jitq.Optimize.MergeParallel
import Mathlib.Logic.Relation

namespace Jitq.Optimize

open Partial Graphs List Option

/-! # When the work list of `MergeParallelOperators` becomes empty

A merge is put off if a consumer of the operator to be absorbed comes later in the topological order.  If
such a consumer is not parallel, then no other merge moves it, and the same merge may be put off forever.

* `Merged.isContraction` — a merge contracts a flow of the outer plan;
* `LoopInv` — every parallel operator that reads from another one is waiting;
* `Unblocked` — the consumers of parallel operators that read from each other are behind all of them;
* `halts_of_unblocked` — then the queue becomes empty, or an assertion fails, whatever the topological
  order;
* `unblocked_of_terminates` — and only then it becomes empty for every topological order. -/

variable {I : Type} {topSort : TopologicalSort ℕ} {dag dag' : Plan I} {pop other : ℕ}

/-- The outer plan is a graph without cycles. -/
structure OuterGraph (dag : Plan I) : Prop where
  nodup : dag.operators.Nodup
  closed : ∀ e ∈ dag.edges, e.1 ∈ dag.operators ∧ e.2 ∈ dag.operators
  acyclic : dag.Acyclic

/-- A flow between parallel operators. -/
def ParallelFlow (dag : Plan I) (u v : ℕ) : Prop :=
  (u, v) ∈ dag.edges ∧ isParallel dag u = true ∧ isParallel dag v = true

/-- Connected by flows between parallel operators, in either direction. -/
def Linked (dag : Plan I) : ℕ → ℕ → Prop := Relation.EqvGen (ParallelFlow dag)

/-- A consumer of one of several connected parallel operators that is not parallel itself is behind all of
    them. -/
def Unblocked (dag : Plan I) : Prop :=
  ∀ a b t, Linked dag a b → (b, t) ∈ dag.edges → isParallel dag t = false → Reaches dag.edges a t

/-- The loop is done. -/
def MergeState.Finished (s : MergeState I) : Prop := s.pops = [] ∧ s.current = none

/-- The loop reaches an empty queue. -/
def Terminates (topSort : TopologicalSort ℕ) (dag : Plan I) : Prop :=
  ∃ k s, steps topSort k (start topSort dag) = some s ∧ s.Finished

/-- The loop reaches an empty queue, or an assertion fails. -/
def Halts (topSort : TopologicalSort ℕ) (s : MergeState I) : Prop :=
  ∃ k, steps topSort k s = none ∨ ∃ s', steps topSort k s = some s' ∧ s'.Finished

/-! ### A merge as a contraction -/

variable {u v t a b : ℕ} {s s' : MergeState I}

theorem mem_edges : (u, v) ∈ dag.edges ↔ ∃ f ∈ dag.flows, f.source.op = u ∧ f.target.op = v := by
  unfold PortedDag.edges
  simp [Prod.ext_iff]

theorem OuterGraph.ne (h : OuterGraph dag) (hedge : (u, v) ∈ dag.edges) : u ≠ v := by
  rintro rfl
  exact h.acyclic u (.single hedge)

theorem OuterGraph.noLoop (h : OuterGraph dag) : ∀ f ∈ dag.flows, f.source.op = other → f.target.op ≠ other := by
  intro f hf hsrc htgt
  exact h.ne (mem_edges.mpr ⟨f, hf, hsrc, htgt⟩) rfl

theorem Merged.mem_edges (h : Merged dag dag' pop other) : (u, v) ∈ dag'.edges ↔
    ((u, v) ∈ dag.edges ∧ u ≠ other ∧ v ≠ other) ∨ (v = pop ∧ (u, other) ∈ dag.edges) ∨
      (u = pop ∧ v ≠ pop ∧ (other, v) ∈ dag.edges) := by
  obtain ⟨inPorts, outPorts, hin, hout, hperm⟩ := h.flows
  simp only [Jitq.Optimize.mem_edges, hperm.mem_iff, mem_mergedFlows]
  constructor
  · rintro ⟨f, ⟨hf, hne⟩ | ⟨i, g, port, hg, -, rfl⟩ | ⟨i, g, port, hg, -, rfl⟩, rfl, rfl⟩
    · exact .inl ⟨⟨f, hf, rfl, rfl⟩, hne⟩
    · obtain ⟨hg, htgt⟩ := Dag.mem_inFlows.mp (mem_of_getElem? hg)
      exact .inr (.inl ⟨rfl, g, hg, rfl, htgt⟩)
    · obtain ⟨hg, hsrc, hne⟩ := mem_otherOutFlows.mp (mem_of_getElem? hg)
      exact .inr (.inr ⟨rfl, hne, g, hg, hsrc, rfl⟩)
  · rintro (⟨⟨f, hf, rfl, rfl⟩, hne⟩ | ⟨rfl, f, hf, rfl, htgt⟩ | ⟨rfl, hne, f, hf, hsrc, rfl⟩)
    · exact ⟨f, .inl ⟨hf, hne⟩, rfl, rfl⟩
    · have hmem : f ∈ dag.graph.inFlows other := Dag.mem_inFlows.mpr ⟨hf, htgt⟩
      obtain ⟨i, hi⟩ := mem_iff_getElem?.mp hmem
      obtain ⟨port, hport⟩ := exists_getElem?_of_length hin hi
      exact ⟨_, .inr (.inl ⟨i, f, port, hi, hport, rfl⟩), rfl, rfl⟩
    · obtain ⟨i, hi⟩ := mem_iff_getElem?.mp (mem_otherOutFlows.mpr ⟨hf, hsrc, hne⟩)
      obtain ⟨port, hport⟩ := exists_getElem?_of_length hout hi
      exact ⟨_, .inr (.inr ⟨i, f, port, hi, hport, rfl⟩), rfl, rfl⟩

theorem Merged.isContraction (h : Merged dag dag' pop other) (hgraph : OuterGraph dag) :
    IsContraction pop other dag.edges dag'.edges := by
  rintro ⟨u, v⟩
  rw [h.mem_edges]
  constructor
  · rintro (⟨hedge, hu, hv⟩ | ⟨rfl, hedge⟩ | ⟨rfl, hne, hedge⟩)
    · refine ⟨(u, v), hedge, fun heq => hu (Prod.mk.inj heq).1, ?_⟩
      rw [contract_of_ne hu, contract_of_ne hv]
    · have hu := hgraph.ne hedge
      refine ⟨(u, other), hedge, fun heq => hu (Prod.mk.inj heq).1, ?_⟩
      rw [contract_of_ne hu, contract_self]
    · have hv := hgraph.ne hedge
      refine ⟨(other, v), hedge, fun heq => hne (Prod.mk.inj heq).2, ?_⟩
      rw [contract_self, contract_of_ne hv.symm]
  · rintro ⟨⟨x, y⟩, hedge, hne, heq⟩
    cases heq
    by_cases hx : x = other
    · have hy : y ≠ other := fun hy => hgraph.ne hedge (hx.trans hy.symm)
      subst hx
      refine .inr (.inr ⟨contract_self, ?_, ?_⟩)
      · rw [contract_of_ne hy]
        exact fun hy => hne (by rw [hy])
      · rwa [contract_of_ne hy]
    · by_cases hy : y = other
      · subst hy
        refine .inr (.inl ⟨contract_self, ?_⟩)
        rwa [contract_of_ne hx]
      · refine .inl ?_
        rw [contract_of_ne hx, contract_of_ne hy]
        exact ⟨hedge, hx, hy⟩

theorem Merged.isParallel_contract (h : Merged dag dag' pop other) (hpop : isParallel dag pop = true)
    (hother : isParallel dag other = true) (v : ℕ) :
    isParallel dag' (contract pop other v) = isParallel dag v := by
  obtain ⟨inner, hinner⟩ := h.popOp
  have hpop' : isParallel dag' pop = true := by
    unfold isParallel
    rw [hinner]
    rfl
  by_cases hv : v = other
  · rw [hv, contract_self, hpop', hother]
  · rw [contract_of_ne hv]
    by_cases hvp : v = pop
    · rw [hvp, hpop, hpop']
    · unfold isParallel
      rw [h.op v hvp]

/-- A merge that is not put off closes no cycle: consumers before `pop` in the order do not lead to it. -/
theorem not_reaches_of_not_postpones (hsort : IsTopologicalSort topSort) (hgraph : OuterGraph dag)
    (hpost : postpones topSort dag pop other = false) (hedge : (other, t) ∈ dag.edges) (hne : t ≠ pop) :
    ¬ Reaches dag.edges t pop := by
  intro hreach
  have hlt := hsort.idxOf_lt hgraph.nodup hgraph.closed hgraph.acyclic hreach
  obtain ⟨f, hf, hsrc, rfl⟩ := mem_edges.mp hedge
  have hfalse := any_eq_false.mp hpost f (mem_otherOutFlows.mpr ⟨hf, hsrc, hne⟩)
  exact hfalse (by simpa using hlt)

theorem Merged.outerGraph (h : Merged dag dag' pop other) (hgraph : OuterGraph dag) (hedge : (other, pop) ∈ dag.edges)
    (hsafe : ∀ t, (other, t) ∈ dag.edges → t ≠ pop → ¬ Reaches dag.edges t pop) : OuterGraph dag' where
  nodup := by
    rw [h.operators]
    exact hgraph.nodup.erase other
  closed := by
    rintro ⟨u, v⟩ he
    have hpop : pop ∈ dag.operators.erase other :=
      (mem_erase_of_ne (hgraph.ne hedge).symm).mpr (hgraph.closed _ hedge).2
    rw [h.operators]
    rcases h.mem_edges.mp he with ⟨huv, hu, hv⟩ | ⟨rfl, hu⟩ | ⟨rfl, -, hv⟩
    · exact ⟨(mem_erase_of_ne hu).mpr (hgraph.closed _ huv).1, (mem_erase_of_ne hv).mpr (hgraph.closed _ huv).2⟩
    · exact ⟨(mem_erase_of_ne (hgraph.ne hu)).mpr (hgraph.closed _ hu).1, hpop⟩
    · exact ⟨hpop, (mem_erase_of_ne (hgraph.ne hv).symm).mpr (hgraph.closed _ hv).2⟩
  acyclic := (h.isContraction hgraph).acyclic hgraph.acyclic hedge hsafe

/-! ### The steps of the loop -/

theorem precedingParallel_eq_some (h : precedingParallel dag pop = some other) :
    (other, pop) ∈ dag.edges ∧ isParallel dag other = true := by
  obtain ⟨f, hf, rfl⟩ := map_eq_some_iff.mp h
  obtain ⟨hmem, htgt⟩ := Dag.mem_inFlows.mp (mem_of_find?_eq_some hf)
  have hpar : isParallel dag f.source.op = true := by simpa using find?_some hf
  exact ⟨mem_edges.mpr ⟨f, hmem, rfl, htgt⟩, hpar⟩

theorem precedingParallel_eq_none (h : precedingParallel dag pop = none) (u : ℕ) : ¬ ParallelFlow dag u pop := by
  rintro ⟨hedge, hu, -⟩
  obtain ⟨f, hf, rfl, htgt⟩ := mem_edges.mp hedge
  have hnone := find?_eq_none.mp (map_eq_none_iff.mp h) f (Dag.mem_inFlows.mpr ⟨hf, htgt⟩)
  exact hnone hu

/-- The kinds of steps. -/
inductive StepKind (topSort : TopologicalSort ℕ) (s : MergeState I) : MergeState I → Prop
  | finished : s.Finished → StepKind topSort s s
  | take {pop : ℕ} {pops : List ℕ} : s.current = none → s.pops = pop :: pops →
      StepKind topSort s ⟨s.dag, pops, if pop ∈ s.dag.operators then some pop else none⟩
  | drop {pop : ℕ} : s.current = some pop → precedingParallel s.dag pop = none →
      StepKind topSort s { s with current := none }
  | postpone {pop other : ℕ} : s.current = some pop → precedingParallel s.dag pop = some other →
      postpones topSort s.dag pop other = true →
      StepKind topSort s ⟨s.dag, s.pops ++ [pop], none⟩
  | merge {pop other : ℕ} {dag' : Plan I} : s.current = some pop → precedingParallel s.dag pop = some other →
      postpones topSort s.dag pop other = false → mergeInto s.dag pop other = some dag' →
      StepKind topSort s { s with dag := dag' }

theorem stepKind_of_step (h : step topSort s = some s') : StepKind topSort s s' := by
  unfold step at h
  cases hcur : s.current with
  | none =>
    rw [hcur] at h
    cases hpops : s.pops with
    | nil =>
      rw [hpops] at h
      cases h
      exact .finished ⟨hpops, hcur⟩
    | cons pop pops =>
      rw [hpops] at h
      cases h
      exact .take hcur hpops
  | some pop =>
    rw [hcur] at h
    cases hprec : precedingParallel s.dag pop with
    | none =>
      simp only [hprec] at h
      cases h
      exact .drop hcur hprec
    | some other =>
      simp only [hprec] at h
      by_cases hpost : postpones topSort s.dag pop other = true
      · rw [if_pos hpost] at h
        cases h
        exact .postpone hcur hprec hpost
      · rw [if_neg hpost] at h
        obtain ⟨dag', hmerge, hs'⟩ := bind_eq_some_iff.mp h
        cases hs'
        rw [← hcur]
        exact .merge hcur hprec (by simpa using hpost) hmerge

/-- Every parallel operator that reads from another one is waiting. -/
structure LoopInv (s : MergeState I) : Prop where
  graph : OuterGraph s.dag
  waiting : ∀ u v, ParallelFlow s.dag u v → v ∈ s.pops ∨ s.current = some v
  current : ∀ pop, s.current = some pop → pop ∈ s.dag.operators ∧ isParallel s.dag pop = true
  parallel : ∀ pop ∈ s.pops, pop ∈ s.dag.operators → isParallel s.dag pop = true

theorem LoopInv.start (hsort : IsTopologicalSort topSort) (hgraph : OuterGraph dag) :
    LoopInv (start topSort dag) where
  graph := hgraph
  waiting u v hflow := by
    have hperm := (hsort dag.operators dag.edges hgraph.nodup hgraph.closed hgraph.acyclic).1
    exact .inl (mem_filter.mpr ⟨hperm.mem_iff.mpr (hgraph.closed _ hflow.1).2, hflow.2.2⟩)
  current pop h := nomatch h
  parallel pop hpop _ := (mem_filter.mp hpop).2

theorem mergeInto_merged (hgraph : OuterGraph dag) (h : mergeInto dag pop other = some dag') :
    Merged dag dag' pop other :=
  let ⟨run, hrun⟩ := mergeInto_eq_some.mp h
  run.merged hrun hgraph.noLoop

theorem Merged.parallelFlow (h : Merged dag dag' pop other) (hgraph : OuterGraph dag)
    (hpop : isParallel dag pop = true) (hother : isParallel dag other = true) {u' v' : ℕ} :
    ParallelFlow dag' u' v' ↔ ∃ u v, ParallelFlow dag u v ∧ (u, v) ≠ (other, pop) ∧
      u' = contract pop other u ∧ v' = contract pop other v := by
  unfold ParallelFlow
  rw [h.isContraction hgraph (u', v')]
  constructor
  · rintro ⟨⟨⟨u, v⟩, hedge, hne, heq⟩, hu, hv⟩
    cases heq
    rw [h.isParallel_contract hpop hother] at hu hv
    exact ⟨u, v, ⟨hedge, hu, hv⟩, hne, rfl, rfl⟩
  · rintro ⟨u, v, ⟨hedge, hu, hv⟩, hne, rfl, rfl⟩
    rw [h.isParallel_contract hpop hother, h.isParallel_contract hpop hother]
    exact ⟨⟨(u, v), hedge, hne, rfl⟩, hu, hv⟩

theorem LoopInv.step (hsort : IsTopologicalSort topSort) (h : LoopInv s)
    (hstep : StepKind topSort s s') : LoopInv s' := by
  cases hstep with
  | finished => exact h
  | @take pop pops hcur hpops =>
    refine ⟨h.graph, fun u v hflow => ?_, fun p hp => ?_, fun p hp => h.parallel p (hpops ▸ mem_cons_of_mem _ hp)⟩
    · rcases h.waiting u v hflow with hv | hv
      · rw [hpops] at hv
        rcases mem_cons.mp hv with rfl | hv
        · exact .inr (if_pos (h.graph.closed _ hflow.1).2)
        · exact .inl hv
      · rw [hcur] at hv
        cases hv
    · dsimp only at hp
      split at hp
      · next hmem =>
        cases hp
        exact ⟨hmem, h.parallel pop (hpops ▸ mem_cons_self) hmem⟩
      · cases hp
  | @drop pop hcur hnone =>
    refine ⟨h.graph, fun u v hflow => ?_, fun p hp => (nomatch hp), h.parallel⟩
    rcases h.waiting u v hflow with hv | hv
    · exact .inl hv
    · obtain rfl := some.inj (hcur.symm.trans hv)
      exact absurd hflow (precedingParallel_eq_none hnone u)
  | @postpone pop other hcur hprec hpost =>
    refine ⟨h.graph, fun u v hflow => ?_, fun p hp => (nomatch hp), fun p hp hmem => ?_⟩
    · rcases h.waiting u v hflow with hv | hv
      · exact .inl (mem_append_left _ hv)
      · obtain rfl := some.inj (hcur.symm.trans hv)
        exact .inl (mem_append_right _ (mem_singleton_self pop))
    · rcases mem_append.mp hp with hp | hp
      · exact h.parallel p hp hmem
      · obtain rfl := mem_singleton.mp hp
        exact (h.current p hcur).2
  | @merge pop other dag' hcur hprec hpost hmerge =>
    obtain ⟨hedge, hother⟩ := precedingParallel_eq_some hprec
    obtain ⟨hmem, hpop⟩ := h.current pop hcur
    have hmerged := mergeInto_merged h.graph hmerge
    have hne := h.graph.ne hedge
    refine ⟨hmerged.outerGraph h.graph hedge fun t => not_reaches_of_not_postpones hsort h.graph hpost,
      fun u' v' hflow => ?_, fun p hp => ?_, fun p hp hmem' => ?_⟩
    · obtain ⟨u, v, hflow0, -, -, rfl⟩ := (hmerged.parallelFlow h.graph hpop hother).mp hflow
      by_cases hv : v = other
      · rw [hv, contract_self]
        exact .inr hcur
      · rw [contract_of_ne hv]
        exact h.waiting u v hflow0
    · obtain rfl := some.inj (hcur.symm.trans hp)
      refine ⟨?_, ?_⟩
      · show pop ∈ dag'.operators
        rw [hmerged.operators]
        exact (mem_erase_of_ne hne.symm).mpr hmem
      · have hpar := hmerged.isParallel_contract hpop hother pop
        rwa [contract_target, hpop] at hpar
    · have hmem' : p ∈ dag'.operators := hmem'
      rw [hmerged.operators] at hmem'
      have hp' : p ≠ other := fun heq => (h.graph.nodup.not_mem_erase) (heq ▸ hmem')
      have hpar := hmerged.isParallel_contract hpop hother p
      rw [contract_of_ne hp'] at hpar
      show isParallel dag' p = true
      rw [hpar]
      exact h.parallel p hp (mem_of_mem_erase hmem')

/-! ### Merging connected operators -/

theorem linked_of_merged (h : Merged dag dag' pop other) (hgraph : OuterGraph dag)
    (hflow : ParallelFlow dag other pop) (hlinked : Linked dag' a b) : Linked dag a b := by
  -- an operator is connected to the one that it is merged into
  have hcontract : ∀ v, Linked dag v (contract pop other v) := by
    intro v
    by_cases hv : v = other
    · rw [hv, contract_self]
      exact .rel _ _ hflow
    · rw [contract_of_ne hv]
      exact .refl v
  induction hlinked with
  | rel u' v' huv =>
    obtain ⟨u, v, huv0, -, rfl, rfl⟩ := (h.parallelFlow hgraph hflow.2.2 hflow.2.1).mp huv
    exact ((hcontract u).symm.trans _ _ _ (.rel _ _ huv0)).trans _ _ _ (hcontract v)
  | refl v => exact .refl v
  | symm u v _ ih => exact ih.symm
  | trans u v w _ _ ih1 ih2 => exact ih1.trans _ _ _ ih2

theorem linked_contract (h : Merged dag dag' pop other) (hgraph : OuterGraph dag) (hflow : ParallelFlow dag other pop)
    (hlinked : Linked dag a b) : Linked dag' (contract pop other a) (contract pop other b) := by
  induction hlinked with
  | rel u v huv =>
    by_cases heq : (u, v) = (other, pop)
    · cases heq
      rw [contract_self, contract_target]
      exact .refl _
    · exact .rel _ _ ((h.parallelFlow hgraph hflow.2.2 hflow.2.1).mpr ⟨u, v, huv, heq, rfl, rfl⟩)
  | refl v => exact .refl _
  | symm u v _ ih => exact ih.symm
  | trans u v w _ _ ih1 ih2 => exact ih1.trans _ _ _ ih2

/-- The absorbed operator is in no flow. -/
theorem Merged.ne_other (h : Merged dag dag' pop other) (hne : pop ≠ other) (hgraph : OuterGraph dag)
    (hedge : (u, v) ∈ dag'.edges) : u ≠ other ∧ v ≠ other := by
  rcases h.mem_edges.mp hedge with ⟨-, hu, hv⟩ | ⟨rfl, hu⟩ | ⟨rfl, -, hv⟩
  · exact ⟨hu, hv⟩
  · exact ⟨hgraph.ne hu, hne⟩
  · exact ⟨hne, (hgraph.ne hv).symm⟩

/-- Connected operators share what the operators of every flow share. -/
theorem Linked.iff_of {P : ℕ → Prop} (hP : ∀ u v, ParallelFlow dag u v → (P u ↔ P v)) (h : Linked dag a b) :
    P a ↔ P b := by
  induction h with
  | rel u v huv => exact hP u v huv
  | refl v => exact Iff.rfl
  | symm u v _ ih => exact ih.symm
  | trans u v w _ _ ih1 ih2 => exact ih1.trans ih2

theorem Linked.eq_iff {o : ℕ} (ho : ∀ u v, ParallelFlow dag u v → u ≠ o ∧ v ≠ o) (h : Linked dag a b) :
    a = o ↔ b = o :=
  h.iff_of fun u v huv => iff_of_false (ho u v huv).1 (ho u v huv).2

theorem Unblocked.merged (h : Unblocked dag) (hmerged : Merged dag dag' pop other) (hgraph : OuterGraph dag)
    (hflow : ParallelFlow dag other pop) : Unblocked dag' := by
  intro a b t hlinked hedge ht
  have hne : pop ≠ other := (hgraph.ne hflow.1).symm
  have hisPar := hmerged.isParallel_contract hflow.2.2 hflow.2.1
  have hpop' : isParallel dag' pop = true := by
    rw [← contract_target (p := pop) (o := other), hisPar]
    exact hflow.2.2
  have htpop : t ≠ pop := by
    rintro rfl
    rw [hpop'] at ht
    cases ht
  have htother := (hmerged.ne_other hne hgraph hedge).2
  -- the flow comes from one of the two merged operators, or it was there before
  obtain ⟨x, hx, hxt⟩ : ∃ x, Linked dag b x ∧ (x, t) ∈ dag.edges := by
    rcases hmerged.mem_edges.mp hedge with ⟨hbt, -, -⟩ | ⟨rfl, -⟩ | ⟨rfl, -, hot⟩
    · exact ⟨b, .refl b, hbt⟩
    · exact absurd rfl htpop
    · exact ⟨other, (Relation.EqvGen.rel _ _ hflow).symm, hot⟩
  have ht0 : isParallel dag t = false := by
    rw [← hisPar t, contract_of_ne htother]
    exact ht
  have hreach := h a x t ((linked_of_merged hmerged hgraph hflow hlinked).trans _ _ _ hx) hxt ht0
  have haother : a ≠ other := by
    intro ha
    have hiff := hlinked.eq_iff fun u v huv => hmerged.ne_other hne hgraph huv.1
    exact (hmerged.ne_other hne hgraph hedge).1 (hiff.mp ha)
  rcases (hmerged.isContraction hgraph).reaches hreach with heq | hreach'
  · rw [contract_of_ne haother, contract_of_ne htother] at heq
    exact absurd hreach (heq ▸ hgraph.acyclic a)
  · rwa [contract_of_ne haother, contract_of_ne htother] at hreach'

/-! ### Progress -/

theorem steps_add (j k : ℕ) (s : MergeState I) : steps topSort (j + k) s =
    (steps topSort j s).bind (steps topSort k) := by
  induction k with
  | zero =>
    show steps topSort j s = _
    cases steps topSort j s <;> rfl
  | succ k ih =>
    show (steps topSort (j + k) s).bind _ = _
    rw [ih, bind_assoc]
    rfl

theorem steps_one (s : MergeState I) : steps topSort 1 s = step topSort s := rfl

/-- The loop halts, or it reaches a state with fewer than `n` operators. -/
def Advances (topSort : TopologicalSort ℕ) (n : ℕ) (s : MergeState I) : Prop :=
  ∃ k, steps topSort k s = none ∨ ∃ s', steps topSort k s = some s' ∧
    (s'.Finished ∨ LoopInv s' ∧ Unblocked s'.dag ∧ s'.dag.operators.length < n)

theorem Advances.of_step {n : ℕ} (h : ∀ s', step topSort s = some s' → Advances topSort n s') :
    Advances topSort n s := by
  cases hstep : step topSort s with
  | none => exact ⟨1, .inl hstep⟩
  | some s1 =>
    have hsteps : ∀ k, steps topSort (1 + k) s = steps topSort k s1 := by
      intro k
      rw [steps_add, steps_one, hstep, bind_some]
    obtain ⟨k, hk⟩ := h s1 hstep
    exact ⟨1 + k, by rwa [hsteps]⟩

variable (hsort : IsTopologicalSort topSort)
include hsort

/-- A merge leads to fewer operators. -/
theorem advances_of_merge (h : LoopInv s) (hunblocked : Unblocked s.dag) (hcur : s.current = some pop)
    (hprec : precedingParallel s.dag pop = some other)
    (hpost : postpones topSort s.dag pop other = false) (hmerge : mergeInto s.dag pop other = some dag') :
    Advances topSort s.dag.operators.length { s with dag := dag' } := by
  obtain ⟨hedge, hother⟩ := precedingParallel_eq_some hprec
  have hmerged := mergeInto_merged h.graph hmerge
  refine ⟨0, .inr ⟨_, rfl, .inr ⟨h.step hsort (.merge hcur hprec hpost hmerge), ?_, ?_⟩⟩⟩
  · exact hunblocked.merged hmerged h.graph ⟨hedge, hother, (h.current pop hcur).2⟩
  · show dag'.operators.length < _
    have hmem := (h.graph.closed _ hedge).1
    rw [hmerged.operators, length_erase_of_mem hmem]
    exact Nat.sub_one_lt (length_pos_of_mem hmem).ne'

/-- The first operator of the queue is dropped, put off, or merged with another one. -/
theorem advances_cons {pops : List ℕ} (h : LoopInv ⟨dag, pop :: pops, none⟩) (hunblocked : Unblocked dag)
    (hdrop : pop ∉ dag.operators ∨ precedingParallel dag pop = none → LoopInv ⟨dag, pops, none⟩ →
      Advances topSort dag.operators.length ⟨dag, pops, none⟩)
    (hpostpone : ∀ other, precedingParallel dag pop = some other →
      postpones topSort dag pop other = true → LoopInv ⟨dag, pops ++ [pop], none⟩ →
      Advances topSort dag.operators.length ⟨dag, pops ++ [pop], none⟩) :
    Advances topSort dag.operators.length ⟨dag, pop :: pops, none⟩ := by
  refine .of_step fun s hs => ?_
  have hinv := h.step hsort (stepKind_of_step hs)
  cases hs
  by_cases hmem : pop ∈ dag.operators
  · simp only [if_pos hmem] at hinv ⊢
    refine .of_step fun s hs => ?_
    have hinv' := hinv.step hsort (stepKind_of_step hs)
    cases stepKind_of_step hs with
    | finished hfin => exact nomatch hfin.2
    | take hcur => cases hcur
    | @drop q hcur hnone =>
      cases hcur
      exact hdrop (.inr hnone) hinv'
    | @postpone q other hcur hprec hpost =>
      cases hcur
      exact hpostpone other hprec hpost hinv'
    | @merge q other dag' hcur hprec hpost hmerge =>
      cases hcur
      exact advances_of_merge hsort hinv hunblocked rfl hprec hpost hmerge
  · simp only [if_neg hmem] at hinv ⊢
    exact hdrop (.inl hmem) hinv

/-- Without flows between parallel operators the queue is emptied. -/
theorem advances_of_unlinked (pops : List ℕ) (h : LoopInv ⟨dag, pops, none⟩) (hunblocked : Unblocked dag)
    (hflow : ∀ u v, ¬ ParallelFlow dag u v) :
    Advances topSort dag.operators.length ⟨dag, pops, none⟩ := by
  induction pops with
  | nil => exact ⟨0, .inr ⟨_, rfl, .inl ⟨rfl, rfl⟩⟩⟩
  | cons pop pops ih =>
    refine advances_cons hsort h hunblocked (fun _ hinv => ih hinv) fun other hprec _ _ => ?_
    obtain ⟨hedge, hother⟩ := precedingParallel_eq_some hprec
    have hpop := h.parallel pop mem_cons_self (h.graph.closed _ hedge).2
    exact absurd ⟨hedge, hother, hpop⟩ (hflow other pop)

/-- If a merge into `pop` is possible now, then the operators before it in the queue do not prevent it. -/
theorem advances_of_mem (before after : List ℕ) (h : LoopInv ⟨dag, before ++ pop :: after, none⟩)
    (hunblocked : Unblocked dag) (hmem : pop ∈ dag.operators) (hsome : precedingParallel dag pop ≠ none)
    (hready : ∀ other, precedingParallel dag pop = some other → postpones topSort dag pop other = false) :
    Advances topSort dag.operators.length ⟨dag, before ++ pop :: after, none⟩ := by
  induction before generalizing after with
  | nil =>
    refine advances_cons hsort h hunblocked ?_ fun other hprec hpost _ => ?_
    · rintro (hnot | hnone) -
      · exact absurd hmem hnot
      · exact absurd hnone hsome
    · rw [hready other hprec] at hpost
      cases hpost
  | cons q before ih =>
    rw [cons_append] at h ⊢
    refine advances_cons hsort h hunblocked (fun _ hinv => ih after hinv) fun other _ _ hinv => ?_
    rw [append_assoc, cons_append] at hinv ⊢
    exact ih (after ++ [q]) hinv

/-- Some merge is always possible: the last one in the topological order. -/
theorem exists_ready (hgraph : OuterGraph dag) (hunblocked : Unblocked dag) (hflow : ParallelFlow dag u v) :
    ∃ pop, (∃ u, ParallelFlow dag u pop) ∧
      ∀ other, precedingParallel dag pop = some other → postpones topSort dag pop other = false := by
  classical
  let order := topSort dag.operators dag.edges
  obtain ⟨pop, hpop, hmax⟩ := (dag.operators.toFinset.filter fun v => ∃ u, ParallelFlow dag u v).exists_max_image
    (fun v => order.idxOf v)
    ⟨v, Finset.mem_filter.mpr ⟨mem_toFinset.mpr (hgraph.closed _ hflow.1).2, u, hflow⟩⟩
  obtain ⟨-, w, hw⟩ := Finset.mem_filter.mp hpop
  refine ⟨pop, ⟨w, hw⟩, fun other hprec => ?_⟩
  obtain ⟨hedge, hother⟩ := precedingParallel_eq_some hprec
  refine any_eq_false.mpr fun f hf => ?_
  obtain ⟨hout, -⟩ := mem_filter.mp hf
  obtain ⟨hmem, hsrc⟩ := Dag.mem_outFlows.mp hout
  have hedge' : (other, f.target.op) ∈ dag.edges := mem_edges.mpr ⟨f, hmem, hsrc, rfl⟩
  have hle : order.idxOf f.target.op ≤ order.idxOf pop := by
    cases hpar : isParallel dag f.target.op with
    | true =>
      refine hmax _ (Finset.mem_filter.mpr ⟨mem_toFinset.mpr (hgraph.closed _ hedge').2, other, ?_⟩)
      exact ⟨hedge', hother, hpar⟩
    | false =>
      -- a consumer that is not parallel is behind `pop`
      have hlinked : Linked dag pop other := (Relation.EqvGen.rel other pop ⟨hedge, hother, hw.2.2⟩).symm
      have hreach := hunblocked pop other _ hlinked hedge' hpar
      exact (hsort.idxOf_lt hgraph.nodup hgraph.closed hgraph.acyclic hreach).le
  simpa using hle

theorem advances_of_waiting {pops : List ℕ} (h : LoopInv ⟨dag, pops, none⟩) (hunblocked : Unblocked dag) :
    Advances topSort dag.operators.length ⟨dag, pops, none⟩ := by
  by_cases hflow : ∃ u v, ParallelFlow dag u v
  · obtain ⟨u, v, huv⟩ := hflow
    obtain ⟨pop, ⟨w, hw⟩, hready⟩ := exists_ready hsort h.graph hunblocked huv
    have hmem : pop ∈ pops := (h.waiting w pop hw).resolve_right nofun
    obtain ⟨before, after, rfl⟩ := append_of_mem hmem
    refine advances_of_mem hsort before after h hunblocked (h.graph.closed _ hw.1).2 ?_ hready
    exact fun hnone => precedingParallel_eq_none hnone w hw
  · push Not at hflow
    exact advances_of_unlinked hsort pops h hunblocked hflow

theorem advances (h : LoopInv s) (hunblocked : Unblocked s.dag) :
    Advances topSort s.dag.operators.length s := by
  obtain ⟨dag, pops, current⟩ := s
  cases current with
  | none => exact advances_of_waiting hsort h hunblocked
  | some pop =>
    refine .of_step fun s hs => ?_
    have hinv := h.step hsort (stepKind_of_step hs)
    cases stepKind_of_step hs with
    | finished hfin => exact nomatch hfin.2
    | take hcur => cases hcur
    | drop => exact advances_of_waiting hsort hinv hunblocked
    | postpone => exact advances_of_waiting hsort hinv hunblocked
    | merge hcur hprec hpost hmerge =>
      exact advances_of_merge hsort h hunblocked hcur hprec hpost hmerge

theorem halts_of_unblocked (h : LoopInv s) (hunblocked : Unblocked s.dag) : Halts topSort s := by
  induction hn : s.dag.operators.length using Nat.strong_induction_on generalizing s with
  | _ n ih =>
    obtain ⟨k, hnone | ⟨s', hs', hfin | ⟨hinv, hunblocked', hlt⟩⟩⟩ := advances hsort h hunblocked
    · exact ⟨k, .inl hnone⟩
    · exact ⟨k, .inr ⟨s', hs', hfin⟩⟩
    · obtain ⟨j, hj⟩ := ih _ (hn ▸ hlt) hinv hunblocked' rfl
      refine ⟨k + j, ?_⟩
      rw [steps_add, hs', bind_some]
      exact hj

omit hsort

/-! ### Merges that are put off forever -/

/-- Two connected parallel operators of which one leads to `t` and the other does not. -/
def Blocked (t : ℕ) (dag : Plan I) : Prop :=
  isParallel dag t = false ∧ ∃ a b, Linked dag a b ∧ ¬ LeadsTo dag.edges t a ∧ LeadsTo dag.edges t b

theorem exists_blocked (hgraph : OuterGraph dag) (h : ¬ Unblocked dag) : ∃ t, Blocked t dag := by
  unfold Unblocked at h
  push Not at h
  obtain ⟨a, b, t, hlinked, hedge, ht, hnot⟩ := h
  refine ⟨t, ht, a, b, hlinked, ?_, .inr (.single hedge)⟩
  rintro (rfl | hreach)
  · -- `a` is not parallel, so it is not connected to another operator
    have hiff := hlinked.eq_iff (o := a) fun u v huv => ⟨?_, ?_⟩
    · exact hgraph.ne hedge (hiff.mp rfl)
    · rintro rfl
      rw [huv.2.1] at ht
      cases ht
    · rintro rfl
      rw [huv.2.2] at ht
      cases ht
  · exact hnot hreach

/-- An order that holds back the operators that lead to `t` puts off the merges that matter. -/
theorem leadsTo_of_not_postpones (hgraph : OuterGraph dag) (ht : isParallel dag t = false)
    (hflow : ParallelFlow dag other pop) (hpost : postpones (holdBack t) dag pop other = false)
    (hlead : LeadsTo dag.edges t other) : LeadsTo dag.edges t pop := by
  by_contra hnot
  have hreach : Reaches dag.edges other t := by
    refine hlead.resolve_left ?_
    rintro rfl
    rw [hflow.2.1] at ht
    cases ht
  obtain ⟨w, hedge, hw⟩ := Relation.TransGen.head'_iff.mp hreach
  have hw : LeadsTo dag.edges t w := by
    rcases Relation.reflTransGen_iff_eq_or_transGen.mp hw with heq | hw
    · exact .inl heq.symm
    · exact .inr hw
  have hne : w ≠ pop := fun heq => hnot (heq ▸ hw)
  obtain ⟨f, hf, hsrc, rfl⟩ := mem_edges.mp hedge
  have hfalse := any_eq_false.mp hpost f
    (mem_filter.mpr ⟨Dag.mem_outFlows.mpr ⟨hf, hsrc⟩, by simpa using hne⟩)
  exact hfalse (by simpa using idxOf_holdBack_lt hnot hw (hgraph.closed _ hflow.1).2)

theorem Blocked.merged (h : Blocked t dag) (hmerged : Merged dag dag' pop other) (hgraph : OuterGraph dag)
    (hflow : ParallelFlow dag other pop) (hpost : postpones (holdBack t) dag pop other = false) :
    Blocked t dag' := by
  obtain ⟨ht, a, b, hlinked, ha, hb⟩ := h
  have hne : pop ≠ other := (hgraph.ne hflow.1).symm
  have htother : t ≠ other := by
    rintro rfl
    rw [hflow.2.1] at ht
    cases ht
  have hboth := leadsTo_of_not_postpones hgraph ht hflow hpost
  have hcontraction := hmerged.isContraction hgraph
  have hiff : ∀ v, LeadsTo dag'.edges t (contract pop other v) ↔ LeadsTo dag.edges t v := by
    intro v
    by_cases hv : v = other
    · rw [hv, contract_self, hcontraction.leadsTo_iff htother hflow.1 hboth hne]
      exact ⟨fun hpop => hpop.head hflow.1, hboth⟩
    · rw [contract_of_ne hv]
      exact hcontraction.leadsTo_iff htother hflow.1 hboth hv
  refine ⟨?_, contract pop other a, contract pop other b, linked_contract hmerged hgraph hflow hlinked, ?_, ?_⟩
  · rw [← hmerged.isParallel_contract hflow.2.2 hflow.2.1 t, contract_of_ne htother] at ht
    exact ht
  · rwa [hiff]
  · rwa [hiff]

theorem Blocked.steps (h : LoopInv s) (hblocked : Blocked t s.dag) (k : ℕ) (hsteps : steps (holdBack t) k s = some s') :
    LoopInv s' ∧ Blocked t s'.dag := by
  induction k generalizing s' with
  | zero =>
    cases hsteps
    exact ⟨h, hblocked⟩
  | succ k ih =>
    obtain ⟨s1, hs1, hstep⟩ := bind_eq_some_iff.mp hsteps
    obtain ⟨hinv, hblocked1⟩ := ih hs1
    have hkind := stepKind_of_step hstep
    refine ⟨hinv.step (isTopologicalSort_holdBack t) hkind, ?_⟩
    cases hkind with
    | finished => exact hblocked1
    | take => exact hblocked1
    | drop => exact hblocked1
    | postpone => exact hblocked1
    | merge hcur hprec hpost hmerge =>
      obtain ⟨hedge, hother⟩ := precedingParallel_eq_some hprec
      exact hblocked1.merged (mergeInto_merged hinv.graph hmerge) hinv.graph
        ⟨hedge, hother, (hinv.current _ hcur).2⟩ hpost

/-- A loop that is done has merged all connected operators. -/
theorem LoopInv.not_blocked (h : LoopInv s) (hfin : s.Finished) : ¬ Blocked t s.dag := by
  rintro ⟨-, a, b, hlinked, ha, hb⟩
  have hnone : ∀ u v, ¬ ParallelFlow s.dag u v := by
    intro u v huv
    rcases h.waiting u v huv with hv | hv
    · rw [hfin.1] at hv
      cases hv
    · rw [hfin.2] at hv
      cases hv
  have hab : b = a := (hlinked.eq_iff (o := a) fun u v huv => absurd huv (hnone u v)).mp rfl
  exact ha (hab ▸ hb)

/-- If the queue becomes empty for every topological order, then the plan is unblocked. -/
theorem unblocked_of_terminates (hgraph : OuterGraph dag)
    (h : ∀ sort, IsTopologicalSort sort → Terminates sort dag) : Unblocked dag := by
  by_contra hnot
  obtain ⟨t, hblocked⟩ := exists_blocked hgraph hnot
  have hsort := isTopologicalSort_holdBack t
  obtain ⟨k, s, hs, hfin⟩ := h (holdBack t) hsort
  obtain ⟨hinv, hblocked'⟩ := Blocked.steps (LoopInv.start hsort hgraph) hblocked k hs
  exact hinv.not_blocked hfin hblocked'

/-- A loop that is done stays as it is. -/
theorem steps_of_finished (h : s.Finished) (k : ℕ) : steps topSort k s = some s := by
  induction k with
  | zero => rfl
  | succ k ih =>
    show (steps topSort k s).bind _ = _
    rw [ih, bind_some, step, h.2, h.1]

/-- A loop that halts reaches an empty queue exactly if no assertion fails. -/
theorem terminates_iff (h : Halts topSort (start topSort dag)) :
    Terminates topSort dag ↔ ∀ k, steps topSort k (start topSort dag) ≠ none := by
  constructor
  · rintro ⟨k, s, hs, hfin⟩ j hnone
    -- both are still the case after `k + j` steps
    have hlater : steps topSort (k + j) (start topSort dag) = _ := steps_add k j _
    rw [hs, bind_some, steps_of_finished hfin, Nat.add_comm, steps_add, hnone] at hlater
    cases hlater
  · intro hsteps
    obtain ⟨k, hnone | ⟨s, hs, hfin⟩⟩ := h
    · exact absurd hnone (hsteps k)
    · exact ⟨k, s, hs, hfin⟩

/-- If all merges are put off, then the loop never ends. -/
theorem not_halts_of_postpones (hsort : IsTopologicalSort topSort) (hgraph : OuterGraph dag)
    (hpost : ∀ pop other, isParallel dag pop = true → precedingParallel dag pop = some other →
      postpones topSort dag pop other = true) (hflow : ParallelFlow dag u v) :
    ¬ Halts topSort (start topSort dag) := by
  -- the plan stays as it is, so that no assertion fails and `v` keeps waiting
  have hrun : ∀ k, ∃ s, steps topSort k (start topSort dag) = some s ∧ s.dag = dag ∧
      LoopInv s := by
    intro k
    induction k with
    | zero => exact ⟨_, rfl, rfl, LoopInv.start hsort hgraph⟩
    | succ k ih =>
      obtain ⟨s, hs, hdag, hinv⟩ := ih
      have hstep : ∃ s', step topSort s = some s' ∧ s'.dag = dag := by
        subst hdag
        unfold step
        split
        · split <;> exact ⟨_, rfl, rfl⟩
        · next pop hcur =>
          split
          · exact ⟨_, rfl, rfl⟩
          · next other hprec =>
            rw [if_pos (hpost pop other (hinv.current pop hcur).2 hprec)]
            exact ⟨_, rfl, rfl⟩
      obtain ⟨s', hs', hdag'⟩ := hstep
      refine ⟨s', ?_, hdag', hinv.step hsort (stepKind_of_step hs')⟩
      show (steps topSort k (start topSort dag)).bind _ = some s'
      rw [hs, bind_some, hs']
  rintro ⟨k, hk⟩
  obtain ⟨s, hs, hdag, hinv⟩ := hrun k
  rcases hk with hnone | ⟨s', hs', hfin⟩
  · rw [hs] at hnone
    cases hnone
  · obtain rfl := some.inj (hs.symm.trans hs')
    rcases hinv.waiting u v (hdag.symm ▸ hflow) with hv | hv
    · rw [hfin.1] at hv
      cases hv
    · rw [hfin.2] at hv
      cases hv

/-- Workers that read lookups, and an operator that reads these. -/
def workers (base numInputs : ℕ) (cls : OperatorClass) : OpDag Empty where
  operators := range' base (numInputs + 1)
  op v := ⟨⟨v, none, "", if v < base + numInputs then .parameterLookup else cls⟩, none⟩
  flows := (range numInputs).map fun i => ⟨⟨base + i, 0⟩, ⟨base + numInputs, i⟩⟩
  inputs := (range numInputs).foldl (fun inputs i => inputs.emplace i ⟨base + i, 0⟩) ∅
  outputs := (∅ : SortedMap.Map ℕ FlowTip).assign 0 ⟨base + numInputs, 0⟩

/-- A constant that is read by workers, whose result other workers read twice: as it is, and the best of
    it. -/
def topOfWorkers : Plan Empty where
  operators := [0, 1, 2, 3]
  op
    | 1 => ⟨⟨1, none, "", .concurrentExecute 1 1⟩, some (workers 10 1 .map)⟩
    | 2 => ⟨⟨2, none, "", .topK 1⟩, none⟩
    | 3 => ⟨⟨3, none, "", .concurrentExecute 2 1⟩, some (workers 20 2 .cartesian)⟩
    | v => ⟨⟨v, none, "", .constantTuple ["1"]⟩, none⟩
  flows := [⟨⟨0, 0⟩, ⟨1, 0⟩⟩, ⟨⟨1, 0⟩, ⟨2, 0⟩⟩, ⟨⟨2, 0⟩, ⟨3, 0⟩⟩, ⟨⟨1, 0⟩, ⟨3, 1⟩⟩]
  inputs := ∅
  outputs := (∅ : SortedMap.Map ℕ FlowTip).assign 0 ⟨3, 0⟩

/-- Workers behind workers, and an operator behind both. -/
def workersBehindWorkers : Plan Empty where
  operators := [0, 1, 2, 3]
  op
    | 1 => ⟨⟨1, none, "", .concurrentExecute 1 1⟩, some (workers 10 1 .map)⟩
    | 2 => ⟨⟨2, none, "", .concurrentExecute 1 1⟩, some (workers 20 1 .filter)⟩
    | 3 => ⟨⟨3, none, "", .topK 1⟩, none⟩
    | v => ⟨⟨v, none, "", .constantTuple ["1"]⟩, none⟩
  flows := [⟨⟨0, 0⟩, ⟨1, 0⟩⟩, ⟨⟨1, 0⟩, ⟨2, 0⟩⟩, ⟨⟨2, 0⟩, ⟨3, 0⟩⟩]
  inputs := ∅
  outputs := (∅ : SortedMap.Map ℕ FlowTip).assign 0 ⟨3, 0⟩

theorem outerGraph_of_lt {dag : Plan I} (hnd : dag.operators.Nodup)
    (h : ∀ e ∈ dag.edges, e.1 ∈ dag.operators ∧ e.2 ∈ dag.operators ∧ e.1 < e.2) : OuterGraph dag where
  nodup := hnd
  closed e he := ⟨(h e he).1, (h e he).2.1⟩
  acyclic := acyclic_of_lt id fun e he => (h e he).2.2

theorem unblocked_workersBehindWorkers : Unblocked workersBehindWorkers := by
  have hparallel : ∀ e ∈ workersBehindWorkers.edges, isParallel workersBehindWorkers e.1 = true →
      isParallel workersBehindWorkers e.2 = true → e = (1, 2) := by decide
  have hleaves : ∀ e ∈ workersBehindWorkers.edges, isParallel workersBehindWorkers e.2 = false →
      e = (2, 3) := by decide
  intro a b t hlinked hedge ht
  cases hleaves _ hedge ht
  have ha : a = 1 ∨ a = 2 := by
    refine (hlinked.iff_of (P := fun v => v = 1 ∨ v = 2) fun u v huv => ?_).mpr (.inr rfl)
    cases hparallel _ huv.1 huv.2.1 huv.2.2
    simp
  rcases ha with rfl | rfl
  · exact .head (by decide : (1, 2) ∈ workersBehindWorkers.edges) (.single hedge)
  · exact .single hedge

/-- The merge of the two groups of workers is put off forever, whatever the topological order. -/
theorem not_halts_topOfWorkers : OuterGraph topOfWorkers ∧
    ¬ ∃ sort, IsTopologicalSort sort ∧ Halts sort (start sort topOfWorkers) := by
  have hgraph : OuterGraph topOfWorkers := outerGraph_of_lt (by decide) (by decide)
  refine ⟨hgraph, ?_⟩
  rintro ⟨sort, hsort, hhalts⟩
  refine not_halts_of_postpones hsort hgraph (fun pop other hpop hprec => ?_)
    (show ParallelFlow topOfWorkers 1 3 from ⟨by decide, rfl, rfl⟩) hhalts
  obtain ⟨hedge, hother⟩ := precedingParallel_eq_some hprec
  have hparallel : ∀ e ∈ topOfWorkers.edges, isParallel topOfWorkers e.1 = true →
      isParallel topOfWorkers e.2 = true → e = (1, 3) := by decide
  cases hparallel _ hedge hother hpop
  -- the operator in between is listed after the workers that read it
  have hlt := hsort.idxOf_lt hgraph.nodup hgraph.closed hgraph.acyclic
    (.single (show Edge topOfWorkers.edges 2 3 from mem_cons_of_mem _ (by decide)))
  refine any_eq_true.mpr ⟨⟨⟨1, 0⟩, ⟨2, 0⟩⟩, by decide, ?_⟩
  simpa using hlt

end Jitq.Optimize

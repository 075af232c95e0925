import Jitq.Optimize.MergeSucceeds

namespace Jitq.Optimize

open SortedMap Partial Graphs List Option

/-! # The meaning of a merge

What a plan computes is given by its operators on both levels and by the wires between them: a flow of an inner DAG, or
a flow of the outer plan, which starts at an output of the workers and ends at one of their lookups if it leads from or
to a parallel operator.

* `Wire` — what is connected with what;
* `Bypassed` — the wires without some lookups;
* `Rewired.wire_iff` — a merge bypasses the lookups between the two operators and changes no other wire;
* `Rewired.workersConnected` — the next merge finds the plan as this one did, if the ports have been
  filled. -/

variable {I : Type}

/-- What is read at a tip of the outer plan. -/
def Produces (dag : Plan I) (source a : FlowTip) : Prop :=
  (isParallel dag source.op = false ∧ a = source) ∨ (isParallel dag source.op = true ∧
    ∃ inner ∈ (dag.op source.op).innerDag, inner.outputs.find source.port = some a)

/-- Where a flow of the outer plan to this tip ends. -/
def Consumes (dag : Plan I) (target b : FlowTip) : Prop :=
  (isParallel dag target.op = false ∧ b = target) ∨ (isParallel dag target.op = true ∧
    ∃ inner ∈ (dag.op target.op).innerDag, ∃ e ∈ inner.inputs.entries, e.1 = target.port ∧ b = ⟨e.2.op, 0⟩)

/-- The connections between the operators that are not parallel, on both levels. -/
inductive Wire (dag : Plan I) : FlowTip → FlowTip → Prop
  | inner {v : ℕ} {inner : OpDag I} {g : Flow} : v ∈ dag.operators → isParallel dag v = true →
      inner ∈ (dag.op v).innerDag → g ∈ inner.flows → Wire dag g.source g.target
  | outer {f : Flow} {a b : FlowTip} : f ∈ dag.flows → Produces dag f.source a → Consumes dag f.target b → Wire dag a b

instance (dag : Plan I) (source a : FlowTip) : Decidable (Produces dag source a) := by
  unfold Produces
  infer_instance

instance (dag : Plan I) (target b : FlowTip) : Decidable (Consumes dag target b) := by
  unfold Consumes
  infer_instance

variable {a : FlowTip}

section

variable {dag : Plan I} {tip : FlowTip} {inner : OpDag I} (hpar : isParallel dag tip.op = true)
    (hinner : (dag.op tip.op).innerDag = some inner)

include hpar hinner

theorem produces_of_parallel : Produces dag tip a ↔ inner.outputs.find tip.port = some a := by
  unfold Produces
  rw [hpar, hinner]
  simp

theorem consumes_of_parallel {b : FlowTip} :
    Consumes dag tip b ↔ ∃ e ∈ inner.inputs.entries, e.1 = tip.port ∧ b = ⟨e.2.op, 0⟩ := by
  unfold Consumes
  rw [hpar, hinner]
  simp

end

theorem wire_iff_exists {dag : Plan I} {a b : FlowTip} : Wire dag a b ↔
    (∃ v ∈ dag.operators, isParallel dag v = true ∧ ∃ inner ∈ (dag.op v).innerDag, ∃ g ∈ inner.flows,
      g.source = a ∧ g.target = b) ∨
    ∃ f ∈ dag.flows, Produces dag f.source a ∧ Consumes dag f.target b := by
  constructor
  · rintro (⟨hv, hpar, hinner, hg⟩ | ⟨hf, ha, hb⟩)
    · exact .inl ⟨_, hv, hpar, _, hinner, _, hg, rfl, rfl⟩
    · exact .inr ⟨_, hf, ha, hb⟩
  · rintro (⟨v, hv, hpar, inner, hinner, g, hg, rfl, rfl⟩ | ⟨f, hf, ha, hb⟩)
    · exact .inner hv hpar hinner hg
    · exact .outer hf ha hb

instance (dag : Plan I) (a b : FlowTip) : Decidable (Wire dag a b) := decidable_of_iff' _ wire_iff_exists

/-- The wires once some operators have been taken out and their input is read directly. -/
def Bypassed (removed : ℕ → Prop) (wire : FlowTip → FlowTip → Prop) (a b : FlowTip) : Prop :=
  (wire a b ∧ ¬ removed a.op ∧ ¬ removed b.op) ∨ ∃ v port, removed v ∧ wire a ⟨v, 0⟩ ∧ wire ⟨v, port⟩ b

variable {v : ℕ}

section Merge

variable {dag dag' : Plan I} {pop other : ℕ} {inner otherInner inner' : OpDag I}
  (h : WorkersPair dag pop other inner otherInner) (hnew : Rewired dag dag' pop other inner otherInner inner')

/-! ### The ends of the outer flows -/

section Ends

include hnew

theorem Rewired.innerDag : (dag'.op pop).innerDag = some inner' := hnew.ports.innerDag

theorem Rewired.isParallel_pop : isParallel dag' pop = true := by
  unfold isParallel
  rw [hnew.ports.popOp]
  rfl

theorem Rewired.isParallel_of_ne (hv : v ≠ pop) : isParallel dag' v = isParallel dag v := by
  unfold isParallel
  rw [hnew.ports.merged.op v hv]

theorem Rewired.produces_of_ne {source a : FlowTip} (hsrc : source.op ≠ pop) :
    Produces dag' source a ↔ Produces dag source a := by
  unfold Produces
  rw [hnew.isParallel_of_ne hsrc, hnew.ports.merged.op _ hsrc]

theorem Rewired.consumes_of_ne {target b : FlowTip} (htgt : target.op ≠ pop) :
    Consumes dag' target b ↔ Consumes dag target b := by
  unfold Consumes
  rw [hnew.isParallel_of_ne htgt, hnew.ports.merged.op _ htgt]

theorem Rewired.produces_pop {tip : FlowTip} (htip : tip.op = pop) :
    Produces dag' tip a ↔ inner'.outputs.find tip.port = some a :=
  produces_of_parallel (htip ▸ hnew.isParallel_pop) (htip ▸ hnew.innerDag)

theorem Rewired.consumes_pop {tip b : FlowTip} (htip : tip.op = pop) :
    Consumes dag' tip b ↔ ∃ e ∈ inner'.inputs.entries, e.1 = tip.port ∧ b = ⟨e.2.op, 0⟩ :=
  consumes_of_parallel (htip ▸ hnew.isParallel_pop) (htip ▸ hnew.innerDag)

/-- The old outputs keep their ports. -/
theorem Rewired.find_old {port : ℕ} (hport : port < inner.numOutPorts) :
    inner'.outputs.find port = some a ↔ inner.outputs.find port = some a := by
  obtain ⟨tips, -, hents⟩ := hnew.outputs
  rw [Map.find_eq_some_iff, Map.find_eq_some_iff, hents, mem_append]
  refine ⟨fun hmem => hmem.resolve_right fun hmem => ?_, .inl⟩
  have hle := (mem_range'_1.mp (of_mem_zip hmem).1).1
  omega

/-- Each consumer of the absorbed operator has its own new output, which is the old one. -/
theorem Rewired.find_new {i : ℕ} {f : Flow} (hf : (otherOutFlows dag pop other)[i]? = some f) :
    inner'.outputs.find (inner.numOutPorts + i) = some a ↔ otherInner.outputs.find f.source.port = some a := by
  obtain ⟨tips, htips, hents⟩ := hnew.outputs
  obtain ⟨tip, htip, hfind⟩ := exists_getElem?_of_forall₂ htips hf
  have hi := (List.getElem?_eq_some_iff.mp hf).1
  have hmem : (inner.numOutPorts + i, tip) ∈ inner'.outputs.entries := by
    rw [hents]
    refine mem_append_right _ (mem_of_getElem? (i := i) ?_)
    rw [getElem?_zip_eq_some]
    exact ⟨by simp [hi], htip⟩
  rw [Map.find_eq_some_iff.mpr hmem, hfind]

end Ends

include h

variable {port : ℕ} {a b tip : FlowTip} {f : Flow}

theorem WorkersPair.produces_pop (htip : tip.op = pop) :
    Produces dag tip a ↔ inner.outputs.find tip.port = some a :=
  produces_of_parallel (htip ▸ h.flow.2.2) (htip ▸ h.innerDag)

theorem WorkersPair.produces_other (htip : tip.op = other) :
    Produces dag tip a ↔ otherInner.outputs.find tip.port = some a :=
  produces_of_parallel (htip ▸ h.flow.2.1) (htip ▸ h.otherInnerDag)

theorem WorkersPair.consumes_pop (htip : tip.op = pop) :
    Consumes dag tip b ↔ ∃ e ∈ inner.inputs.entries, e.1 = tip.port ∧ b = ⟨e.2.op, 0⟩ :=
  consumes_of_parallel (htip ▸ h.flow.2.2) (htip ▸ h.innerDag)

include hnew

theorem Rewired.produces_kept (hf : f ∈ dag.flows) : Produces dag' f.source a ↔ Produces dag f.source a := by
  by_cases hsrc : f.source.op = pop
  · obtain ⟨tip, htip⟩ := h.plan.outputs _ hf (hsrc ▸ h.flow.2.2) inner (hsrc ▸ h.innerDag)
    have hport := h.workers.outputPorts _ (Map.find_eq_some_iff.mp htip)
    rw [hnew.produces_pop hsrc, h.produces_pop hsrc, hnew.find_old hport]
  · exact hnew.produces_of_ne hsrc

/-- An in-flow from elsewhere ends at the same lookup as before. -/
theorem Rewired.consumes_outside (hf : f ∈ dag.flows) (hsrc : f.source.op ≠ other) :
    Consumes dag' f.target b ↔ Consumes dag f.target b := by
  by_cases hpop : f.target.op = pop
  · rw [hnew.consumes_pop hpop, h.consumes_pop hpop]
    exact hnew.ports.lookups_outside h.toMergePair (Dag.mem_inFlows.mpr ⟨hf, hpop⟩) hsrc (b = ⟨·, 0⟩)
  · exact hnew.consumes_of_ne hpop

/-- An in-flow of the absorbed operator ends at the same lookup as before. -/
theorem Rewired.consumes_moved {i : ℕ} (hf : (dag.graph.inFlows other)[i]? = some f)
    (hport : (mergedPorts dag pop other)[i]? = some port) :
    Consumes dag' ⟨pop, port⟩ b ↔ Consumes dag f.target b := by
  have htgt := (Dag.mem_inFlows.mp (mem_of_getElem? hf)).2
  rw [hnew.consumes_pop rfl, consumes_of_parallel (htgt ▸ h.flow.2.1) (htgt ▸ h.otherInnerDag)]
  exact hnew.ports.lookups_moved h.toMergePair hf hport (b = ⟨·, 0⟩)

omit h hnew in
theorem getElem?_range'_eq_some {n m i x : ℕ} : (range' n m)[i]? = some x ↔ i < m ∧ x = n + i := by
  rw [List.getElem?_eq_some_iff]
  simp [eq_comm]

/-- The wires of the outer flows are those of the old ones that do not lead from one operator to the other. -/
theorem Rewired.outer_iff : (∃ f ∈ dag'.flows, Produces dag' f.source a ∧ Consumes dag' f.target b) ↔
      ∃ f ∈ dag.flows, f ∉ inbetweenFlows dag pop other ∧ Produces dag f.source a ∧ Consumes dag f.target b := by
  constructor
  · rintro ⟨f, hf, ha, hb⟩
    rcases mem_mergedFlows.mp (hnew.outerFlows.mem_iff.mp hf) with
      ⟨hmem, hsrc, -⟩ | ⟨i, g, port, hg, hport, rfl⟩ | ⟨i, g, port, hg, hport, rfl⟩
    · exact ⟨f, hmem, fun hbetween => hsrc (mem_inbetweenFlows.mp hbetween).2.1,
        (hnew.produces_kept h hmem).mp ha, (hnew.consumes_outside h hmem hsrc).mp hb⟩
    · obtain ⟨hmem, htgt⟩ := Dag.mem_inFlows.mp (mem_of_getElem? hg)
      exact ⟨g, hmem, fun hbetween => h.ne ((mem_inbetweenFlows.mp hbetween).2.2.symm.trans htgt),
        (hnew.produces_kept h hmem).mp ha, (hnew.consumes_moved h hg hport).mp hb⟩
    · obtain ⟨hmem, hsrc, hne⟩ := mem_otherOutFlows.mp (mem_of_getElem? hg)
      obtain ⟨-, rfl⟩ := getElem?_range'_eq_some.mp hport
      refine ⟨g, hmem, fun hbetween => hne (mem_inbetweenFlows.mp hbetween).2.2,
        (h.produces_other hsrc).mpr ?_, (hnew.consumes_of_ne hne).mp hb⟩
      exact (hnew.find_new hg).mp ((hnew.produces_pop rfl).mp ha)
  · rintro ⟨f, hf, hbetween, ha, hb⟩
    by_cases hsrc : f.source.op = other
    · have hne : f.target.op ≠ pop := fun htgt => hbetween (mem_inbetweenFlows.mpr ⟨hf, hsrc, htgt⟩)
      obtain ⟨i, hi⟩ := mem_iff_getElem?.mp (mem_otherOutFlows.mpr ⟨hf, hsrc, hne⟩)
      have hport := getElem?_range'_eq_some (n := inner.numOutPorts).mpr ⟨(List.getElem?_eq_some_iff.mp hi).1, rfl⟩
      refine ⟨_, hnew.outerFlows.mem_iff.mpr (mem_mergedFlows.mpr (.inr (.inr ⟨i, f, _, hi, hport, rfl⟩))),
        (hnew.produces_pop rfl).mpr ?_, (hnew.consumes_of_ne hne).mpr hb⟩
      exact (hnew.find_new hi).mpr ((h.produces_other hsrc).mp ha)
    · by_cases htgt : f.target.op = other
      · have hin : f ∈ dag.graph.inFlows other := Dag.mem_inFlows.mpr ⟨hf, htgt⟩
        obtain ⟨i, hi⟩ := mem_iff_getElem?.mp hin
        obtain ⟨port, hport⟩ := exists_getElem?_of_length (length_mergedPorts dag pop other) hi
        exact ⟨_, hnew.outerFlows.mem_iff.mpr (mem_mergedFlows.mpr (.inr (.inl ⟨i, f, port, hi, hport, rfl⟩))),
          (hnew.produces_kept h hf).mpr ha, (hnew.consumes_moved h hi hport).mpr hb⟩
      · exact ⟨f, hnew.outerFlows.mem_iff.mpr (mem_mergedFlows.mpr (.inl ⟨hf, hsrc, htgt⟩)),
          (hnew.produces_kept h hf).mpr ha, (hnew.consumes_outside h hf hsrc).mpr hb⟩

/-! ### The lookups in between -/

variable {inner₁ : OpDag I}

section Lookups

omit hnew

theorem WorkersPair.mem_of_replaced (hv : Replaced inner (inbetweenFlows dag pop other) v) : v ∈ inner.operators := by
  obtain ⟨f, -, e, he, -, rfl⟩ := hv
  exact h.workers.closed.input e he

/-- The operators of a parallel operator that has a lookup in common with `pop`. -/
theorem WorkersPair.eq_pop_of_replaced {u v : ℕ} (hv : Replaced inner (inbetweenFlows dag pop other) v)
    (hu : u ∈ dag.operators) (hinner1 : inner₁ ∈ (dag.op u).innerDag)
    (hmem : v ∈ inner₁.operators) : u = pop ∧ inner₁ = inner := by
  have hpop : u = pop := by
    by_contra hne
    exact h.plan.distinct.disjoint u hu pop h.mem_operators.1 hne _ hinner1 _ h.innerDag hmem (h.mem_of_replaced hv)
  rw [hpop] at hinner1
  exact ⟨hpop, some.inj (hinner1.symm.trans h.innerDag)⟩

theorem WorkersPair.not_mem_of_replaced (hv : Replaced inner (inbetweenFlows dag pop other) v) :
    v ∉ dag.operators := fun hmem =>
  h.plan.distinct.separate pop h.mem_operators.1 _ h.innerDag (h.mem_of_replaced hv) hmem

/-- What is read in the outer plan is no lookup. -/
theorem WorkersPair.not_replaced_of_produces {f : Flow} (hf : f ∈ dag.flows)
    (ha : Produces dag f.source a) : ¬ Replaced inner (inbetweenFlows dag pop other) a.op := by
  intro hrepl
  have hsrc : f.source.op ∈ dag.operators := (h.plan.distinct.graph.closed _ (mem_map_of_mem hf)).1
  rcases ha with ⟨-, rfl⟩ | ⟨hpar, inner₁, hinner1, hfind⟩
  · exact h.not_mem_of_replaced hrepl hsrc
  · have hentry := Map.find_eq_some_iff.mp hfind
    have hmem := (h.plan.workers _ hsrc hpar _ hinner1).closed.output _ hentry
    obtain ⟨-, rfl⟩ := h.eq_pop_of_replaced hrepl hsrc hinner1 hmem
    obtain ⟨f', -, e, he, -, heq⟩ := hrepl
    exact h.workers.noOutput e he _ hentry heq.symm

/-- The flows to the lookups that are replaced are those in between. -/
theorem WorkersPair.replaced_iff_of_consumes {f : Flow} (hf : f ∈ dag.flows) {b : FlowTip}
    (hb : Consumes dag f.target b) :
    Replaced inner (inbetweenFlows dag pop other) b.op ↔ f ∈ inbetweenFlows dag pop other := by
  have htgt : f.target.op ∈ dag.operators := (h.plan.distinct.graph.closed _ (mem_map_of_mem hf)).2
  constructor
  · intro hrepl
    rcases hb with ⟨-, rfl⟩ | ⟨hpar, inner₁, hinner1, e, he, hkey, rfl⟩
    · exact absurd htgt (h.not_mem_of_replaced hrepl)
    · have hmem := (h.plan.workers _ htgt hpar _ hinner1).closed.input e he
      obtain ⟨hpop, rfl⟩ := h.eq_pop_of_replaced hrepl htgt hinner1 hmem
      obtain ⟨f', hf', e', he', hkey', heq⟩ := hrepl
      obtain rfl : e' = e := inj_on_of_nodup_map h.ports.distinct he' he heq
      -- the flows to one port are the same
      have hin : f ∈ dag.graph.inFlows pop := Dag.mem_inFlows.mpr ⟨hf, hpop⟩
      rw [inbetweenFlows_eq] at hf' ⊢
      rwa [inj_on_of_nodup_map h.ports.nodup_flows hin (mem_of_mem_filter hf') (hkey.symm.trans hkey')]
  · intro hbetween
    obtain ⟨e, he, hkey, rfl⟩ := (h.consumes_pop (mem_inbetweenFlows.mp hbetween).2.2).mp hb
    exact ⟨_, hbetween, e, he, hkey, rfl⟩

/-- No flow of an inner DAG leads to a lookup, and only those of `pop` start at one that is replaced. -/
theorem WorkersPair.replaced_of_inner (hv : v ∈ dag.operators) (hpar : isParallel dag v = true)
    (hinner1 : inner₁ ∈ (dag.op v).innerDag) {g : Flow} (hg : g ∈ inner₁.flows) :
    (Replaced inner (inbetweenFlows dag pop other) g.source.op → v = pop ∧ inner₁ = inner) ∧
      ¬ Replaced inner (inbetweenFlows dag pop other) g.target.op := by
  have hworkers := h.plan.workers v hv hpar inner₁ hinner1
  refine ⟨fun hrepl => h.eq_pop_of_replaced hrepl hv hinner1 (hworkers.closed.source g hg),
    fun hrepl => ?_⟩
  obtain ⟨-, rfl⟩ := h.eq_pop_of_replaced hrepl hv hinner1 (hworkers.closed.target g hg)
  obtain ⟨f, -, e, he, -, heq⟩ := hrepl
  exact h.workers.source e he g hg heq.symm

/-- What is connected with a lookup that is replaced: an output of the absorbed workers and its consumer. -/
theorem WorkersPair.bypasses_of_wires {a b : FlowTip} {v port : ℕ}
    (hv : Replaced inner (inbetweenFlows dag pop other) v) (ha : Wire dag a ⟨v, 0⟩) (hb : Wire dag ⟨v, port⟩ b) :
    ∃ f ∈ inbetweenFlows dag pop other, otherInner.outputs.find f.source.port = some a ∧
      ∃ e ∈ inner.inputs.entries, e.1 = f.target.port ∧ ∃ g ∈ inner.flows, g.source.op = e.2.op ∧ g.target = b := by
  obtain ⟨f, hf, hproduces, hconsumes⟩ : ∃ f ∈ dag.flows, Produces dag f.source a ∧ Consumes dag f.target ⟨v, 0⟩ := by
    generalize hv' : (⟨v, 0⟩ : FlowTip) = tip at ha
    cases ha with
    | inner hu hpar hinner1 hg =>
      refine absurd ?_ (h.replaced_of_inner hu hpar hinner1 hg).2
      rw [← hv']
      exact hv
    | outer hf hproduces hconsumes => exact ⟨_, hf, hproduces, hconsumes⟩
  have hbetween := (h.replaced_iff_of_consumes hf hconsumes).mp hv
  obtain ⟨g, hg, hsrc, rfl⟩ : ∃ g ∈ inner.flows, g.source.op = v ∧ g.target = b := by
    generalize hv' : (⟨v, port⟩ : FlowTip) = tip at hb
    cases hb with
    | @inner u inner₁ g hu hpar hinner1 hg =>
      have hsrc : g.source.op = v := by rw [← hv']
      obtain ⟨-, rfl⟩ := (h.replaced_of_inner hu hpar hinner1 hg).1 (hsrc ▸ hv)
      exact ⟨g, hg, hsrc, rfl⟩
    | outer hf' hproduces' _ =>
      refine absurd ?_ (h.not_replaced_of_produces hf' hproduces')
      rw [← hv']
      exact hv
  obtain ⟨-, hother, hpop⟩ := mem_inbetweenFlows.mp hbetween
  obtain ⟨e, he, hkey, heq⟩ := (h.consumes_pop hpop).mp hconsumes
  refine ⟨f, hbetween, (h.produces_other hother).mp hproduces, e, he, hkey, g, hg, ?_, rfl⟩
  exact hsrc.trans (congrArg FlowTip.op heq)

end Lookups

/-! ### The wires -/

theorem Rewired.mem_operators : v ∈ dag'.operators ↔ v ≠ other ∧ v ∈ dag.operators := by
  rw [hnew.ports.merged.operators, h.plan.distinct.graph.nodup.mem_erase_iff]

theorem Rewired.pop_mem : pop ∈ dag'.operators := (hnew.mem_operators h).mpr ⟨h.ne, h.mem_operators.1⟩

/-- The inner wires of the merged plan. -/
theorem Rewired.inner_cases (hv : v ∈ dag'.operators) (hpar : isParallel dag' v = true)
    (hinner1 : inner₁ ∈ (dag'.op v).innerDag) {g : Flow} (hg : g ∈ inner₁.flows) :
    Bypassed (Replaced inner (inbetweenFlows dag pop other)) (Wire dag) g.source g.target := by
  have hold {u : ℕ} (hu : u ∈ dag.operators) (hpar : isParallel dag u = true) {inner2 : OpDag I}
      (hinner2 : inner2 ∈ (dag.op u).innerDag) (hg : g ∈ inner2.flows)
      (hsrc : u = pop → ¬ Replaced inner (inbetweenFlows dag pop other) g.source.op) :
      Bypassed (Replaced inner (inbetweenFlows dag pop other)) (Wire dag) g.source g.target :=
    have hrepl := h.replaced_of_inner hu hpar hinner2 hg
    .inl ⟨.inner hu hpar hinner2 hg, fun hs => hsrc (hrepl.1 hs).1 hs, hrepl.2⟩
  by_cases hpop : v = pop
  · subst hpop
    obtain rfl := some.inj (hnew.innerDag.symm.trans hinner1)
    obtain ⟨news, hnews, hflows⟩ := hnew.innerFlows
    rcases mem_append.mp (hflows.mem_iff.mp hg) with hg | hg
    · rcases mem_append.mp hg with hg | hg
      · obtain ⟨hg, hsrc⟩ := mem_filter.mp hg
        exact hold h.mem_operators.1 h.flow.2.2 h.innerDag hg fun _ => of_decide_eq_true hsrc
      · exact hold h.mem_operators.2 h.flow.2.1 h.otherInnerDag hg fun heq => absurd heq.symm h.ne
    · obtain ⟨f, hf, e, he, g', hg', hkey, hsrc, hout, htgt⟩ := exists_left_of_mem hnews hg
      obtain ⟨hmem, hother, hpop⟩ := mem_inbetweenFlows.mp hf
      refine .inr ⟨e.2.op, g'.source.port, ⟨f, hf, e, he, hkey, rfl⟩, .outer hmem
        ((h.produces_other hother).mpr hout) ((h.consumes_pop hpop).mpr ⟨e, he, hkey, rfl⟩), ?_⟩
      rw [htgt, ← hsrc]
      exact .inner h.mem_operators.1 h.flow.2.2 h.innerDag hg'
  · rw [hnew.isParallel_of_ne hpop] at hpar
    rw [hnew.ports.merged.op v hpop] at hinner1
    exact hold ((hnew.mem_operators h).mp hv).2 hpar hinner1 hg fun heq => absurd heq hpop

/-- **A merge keeps the wires**, apart from the lookups between the two operators, whose consumers read directly what
    was written for them. -/
theorem Rewired.wire_iff :
    Wire dag' a b ↔ Bypassed (Replaced inner (inbetweenFlows dag pop other)) (Wire dag) a b := by
  constructor
  · rintro (⟨hv, hpar, hinner1, hg⟩ | ⟨hf, ha, hb⟩)
    · exact hnew.inner_cases h hv hpar hinner1 hg
    · obtain ⟨f, hf, hbetween, ha, hb⟩ := (hnew.outer_iff h).mp ⟨_, hf, ha, hb⟩
      exact .inl ⟨.outer hf ha hb, h.not_replaced_of_produces hf ha,
        fun hrepl => hbetween ((h.replaced_iff_of_consumes hf hb).mp hrepl)⟩
  · rintro (⟨hwire, ha, hb⟩ | ⟨v, port, hv, ha, hb⟩)
    · cases hwire with
      | @inner v inner₁ g hv hpar hinner1 hg =>
        obtain ⟨news, -, hflows⟩ := hnew.innerFlows
        by_cases hpop : v = pop
        · subst hpop
          obtain rfl := some.inj (h.innerDag.symm.trans hinner1)
          refine .inner (hnew.pop_mem h) hnew.isParallel_pop hnew.innerDag (hflows.mem_iff.mpr ?_)
          exact mem_append_left _ (mem_append_left _ (mem_filter.mpr ⟨hg, decide_eq_true ha⟩))
        · by_cases hother : v = other
          · subst hother
            obtain rfl := some.inj (h.otherInnerDag.symm.trans hinner1)
            refine .inner (hnew.pop_mem h) hnew.isParallel_pop hnew.innerDag (hflows.mem_iff.mpr ?_)
            exact mem_append_left _ (mem_append_right _ hg)
          · have hv' : v ∈ dag'.operators := (hnew.mem_operators h).mpr ⟨hother, hv⟩
            rw [← hnew.isParallel_of_ne hpop] at hpar
            rw [← hnew.ports.merged.op v hpop] at hinner1
            exact .inner hv' hpar hinner1 hg
      | outer hf hproduces hconsumes =>
        obtain ⟨f', hf', ha', hb'⟩ := (hnew.outer_iff h).mpr ⟨_, hf,
          fun hbetween => hb ((h.replaced_iff_of_consumes hf hconsumes).mpr hbetween), hproduces, hconsumes⟩
        exact .outer hf' ha' hb'
    · obtain ⟨f, hf, hfind, e, he, hkey, g, hg, hsrc, rfl⟩ := h.bypasses_of_wires hv ha hb
      obtain ⟨news, hnews, hflows⟩ := hnew.innerFlows
      obtain ⟨i, hi⟩ := mem_iff_getElem?.mp hf
      obtain ⟨x, hx, e', he', g', hg', hkey', hsrc', hfind', htgt⟩ := exists_getElem?_of_forall₂ hnews hi
      -- the lookup has one consumer
      obtain rfl : e' = e := inj_on_of_nodup_map h.ports.nodup_inputs he' he (hkey'.trans hkey.symm)
      obtain ⟨g0, hg0⟩ := h.workers.consumer e' he'
      have hconsumer {y : Flow} (hy : y ∈ inner.flows) (hys : y.source.op = e'.2.op) : y = g0 := by
        have hmem : y ∈ inner.graph.outFlows e'.2.op := Dag.mem_outFlows.mpr ⟨hy, hys⟩
        rw [hg0] at hmem
        exact mem_singleton.mp hmem
      obtain rfl : g' = g := (hconsumer hg' hsrc').trans (hconsumer hg hsrc).symm
      rw [← htgt, some.inj (hfind.symm.trans hfind')]
      exact .inner (hnew.pop_mem h) hnew.isParallel_pop hnew.innerDag
        (hflows.mem_iff.mpr (mem_append_right _ (mem_of_getElem? hx)))

/-! ### The plan for the next merge -/

/-- The lookups of the merged workers. -/
theorem Rewired.inputs_cases {e : ℕ × FlowTip} (he : e ∈ inner'.inputs.entries) :
    (¬ Replaced inner (inbetweenFlows dag pop other) e.2.op ∧ ∃ e0 ∈ inner.inputs.entries, e0.2.op = e.2.op) ∨
      ∃ e0 ∈ otherInner.inputs.entries, e0.2.op = e.2.op := by
  obtain ⟨inputs, hmoved, hins⟩ := hnew.ports.inputs
  rcases mem_append.mp (hins.mem_iff.mp he) with he | he
  · obtain ⟨he, hstays⟩ := mem_filter.mp he
    refine .inl ⟨?_, e, he, rfl⟩
    rintro ⟨f, hf, e', he', hkey, heq⟩
    obtain rfl : e' = e := inj_on_of_nodup_map h.ports.distinct he' he heq
    exact of_decide_eq_true hstays f hf hkey.symm
  · obtain ⟨e0, he0, heq⟩ := mem_movedInputs he
    obtain ⟨f, -, hmem, -⟩ := exists_left_of_mem hmoved he0
    exact .inr ⟨e0, hmem, heq⟩

omit h in
/-- The flows of the merged workers: old ones, and new ones from an old output to an operator that is no lookup. -/
theorem Rewired.flow_cases {x : Flow} (hx : x ∈ inner'.flows) :
    (x ∈ inner.flows ∧ ¬ Replaced inner (inbetweenFlows dag pop other) x.source.op) ∨ x ∈ otherInner.flows ∨
      ((∃ o ∈ otherInner.outputs.entries, o.2 = x.source) ∧ ∃ g ∈ inner.flows, g.target = x.target) := by
  obtain ⟨news, hnews, hflows⟩ := hnew.innerFlows
  rcases mem_append.mp (hflows.mem_iff.mp hx) with hx | hx
  · rcases mem_append.mp hx with hx | hx
    · obtain ⟨hx, hsrc⟩ := mem_filter.mp hx
      exact .inl ⟨hx, of_decide_eq_true hsrc⟩
    · exact .inr (.inl hx)
  · obtain ⟨f, -, e, -, g, hg, -, -, hfind, htgt⟩ := exists_left_of_mem hnews hx
    exact .inr (.inr ⟨⟨_, Map.find_eq_some_iff.mp hfind, rfl⟩, g, hg, htgt.symm⟩)

omit h in
/-- The outputs of the merged workers are outputs of one of the two. -/
theorem Rewired.output_cases {o : ℕ × FlowTip} (ho : o ∈ inner'.outputs.entries) :
    o ∈ inner.outputs.entries ∨ (o.1 < inner'.numOutPorts ∧ ∃ o0 ∈ otherInner.outputs.entries, o0.2 = o.2) := by
  obtain ⟨tips, htips, hents⟩ := hnew.outputs
  rw [hents] at ho
  rcases mem_append.mp ho with ho | ho
  · exact .inl ho
  · obtain ⟨hport, htip⟩ := of_mem_zip ho
    obtain ⟨f, -, hfind⟩ := exists_left_of_mem htips htip
    refine .inr ⟨?_, _, Map.find_eq_some_iff.mp hfind, rfl⟩
    unfold PortedDag.numOutPorts
    rw [hents, length_append, length_zip, length_range', ← htips.length_eq, Nat.min_self]
    exact (mem_range'_1.mp hport).2

omit h in
/-- The consumers of an operator that is no output of the absorbed workers. -/
theorem Rewired.outFlows_perm (hrepl : ¬ Replaced inner (inbetweenFlows dag pop other) v)
    (hv : ∀ o ∈ otherInner.outputs.entries, o.2.op ≠ v) :
    (inner'.graph.outFlows v).Perm (inner.graph.outFlows v ++ otherInner.graph.outFlows v) := by
  obtain ⟨news, hnews, hflows⟩ := hnew.innerFlows
  have hnone : news.filter (fun x => decide (x.source.op = v)) = [] := by
    apply filter_eq_nil_iff.mpr
    intro x hx hsrc
    obtain ⟨f, -, e, -, g, -, -, -, hfind, -⟩ := exists_left_of_mem hnews hx
    exact hv _ (Map.find_eq_some_iff.mp hfind) (of_decide_eq_true hsrc)
  have hkept : (inner.flows.filter fun x => ¬ Replaced inner (inbetweenFlows dag pop other) x.source.op).filter
      (fun x => decide (x.source.op = v)) = inner.graph.outFlows v := by
    rw [List.filter_filter]
    refine filter_congr fun x _ => ?_
    by_cases hx : x.source.op = v
    · rw [decide_eq_true hx, Bool.true_and, decide_eq_true (hx.symm ▸ hrepl)]
    · rw [decide_eq_false hx, Bool.false_and]
  refine (hflows.filter fun x => decide (x.source.op = v)).trans (List.Perm.of_eq ?_)
  rw [filter_append, filter_append, hnone, append_nil, hkept]
  rfl

theorem Rewired.workers : Workers inner' := by
  have hinner := h.workers
  have hother := h.otherWorkers
  have hmem {v : ℕ} (hv : v ∈ otherInner.operators) : v ∈ inner'.operators :=
    (hnew.operators v).mpr ⟨.inr hv, h.not_replaced hv⟩
  -- what is no lookup is kept
  have hkept {v : ℕ} (hv : v ∈ inner.operators) (hno : ∀ e ∈ inner.inputs.entries, v ≠ e.2.op) :
      v ∈ inner'.operators := by
    refine (hnew.operators v).mpr ⟨.inl hv, ?_⟩
    rintro ⟨f, -, e, he, -, rfl⟩
    exact hno e he rfl
  have htgt {g : Flow} (hg : g ∈ inner.flows) : g.target.op ∈ inner'.operators :=
    hkept (hinner.closed.target g hg) fun e he => hinner.source e he g hg
  refine ⟨⟨h.nodup.sublist hnew.ports.operators, fun x hx => ?_, fun x hx => ?_, hnew.ports.closed, fun o ho => ?_⟩,
    hnew.acyclic, fun e he => ?_, fun e he x hx heq => ?_, fun e he o ho heq => ?_, fun o ho => ?_⟩
  · rcases hnew.flow_cases hx with ⟨hx, hsrc⟩ | hx | ⟨⟨o, ho, heq⟩, -⟩
    · exact (hnew.operators _).mpr ⟨.inl (hinner.closed.source x hx), hsrc⟩
    · exact hmem (hother.closed.source x hx)
    · rw [← heq]
      exact hmem (hother.closed.output o ho)
  · rcases hnew.flow_cases hx with ⟨hx, -⟩ | hx | ⟨-, g, hg, heq⟩
    · exact htgt hx
    · exact hmem (hother.closed.target x hx)
    · rw [← heq]
      exact htgt hg
  · rcases hnew.output_cases ho with ho | ⟨-, o0, ho0, heq⟩
    · exact hkept (hinner.closed.output o ho) fun e he => hinner.noOutput e he o ho
    · rw [← heq]
      exact hmem (hother.closed.output o0 ho0)
  · rcases hnew.inputs_cases h he with ⟨hrepl, e0, he0, heq⟩ | ⟨e0, he0, heq⟩
    · obtain ⟨g, hg⟩ := hinner.consumer e0 he0
      have hop : e.2.op ∈ inner.operators := heq ▸ hinner.closed.input e0 he0
      have hperm := hnew.outFlows_perm hrepl fun o ho heq' => h.disjoint hop (heq' ▸ hother.closed.output o ho)
      rw [hother.closed.outFlows_eq_nil fun hmem => h.disjoint hop hmem, ← heq, hg, append_nil] at hperm
      exact ⟨g, heq ▸ perm_singleton.mp hperm⟩
    · obtain ⟨g, hg⟩ := hother.consumer e0 he0
      have hop : e.2.op ∈ otherInner.operators := heq ▸ hother.closed.input e0 he0
      have hperm := hnew.outFlows_perm (h.not_replaced hop) fun o ho => heq ▸ hother.noOutput e0 he0 o ho
      rw [hinner.closed.outFlows_eq_nil fun hmem => h.disjoint hmem hop, ← heq, hg, nil_append] at hperm
      exact ⟨g, heq ▸ perm_singleton.mp hperm⟩
  · rcases hnew.inputs_cases h he with ⟨-, e0, he0, heq0⟩ | ⟨e0, he0, heq0⟩
    · rcases hnew.flow_cases hx with ⟨hx, -⟩ | hx | ⟨-, g, hg, htip⟩
      · exact hinner.source e0 he0 x hx (heq.trans heq0.symm)
      · exact h.disjoint (hinner.closed.input e0 he0) (heq0 ▸ heq ▸ hother.closed.target x hx)
      · exact hinner.source e0 he0 g hg (htip ▸ heq.trans heq0.symm)
    · have hop : x.target.op ∈ otherInner.operators := heq ▸ heq0 ▸ hother.closed.input e0 he0
      rcases hnew.flow_cases hx with ⟨hx, -⟩ | hx | ⟨-, g, hg, htip⟩
      · exact h.disjoint (hinner.closed.target x hx) hop
      · exact hother.source e0 he0 x hx (heq.trans heq0.symm)
      · exact h.disjoint (hinner.closed.target g hg) (htip ▸ hop)
  · rcases hnew.inputs_cases h he with ⟨-, e0, he0, heq0⟩ | ⟨e0, he0, heq0⟩
    · rcases hnew.output_cases ho with ho | ⟨-, o0, ho0, htip⟩
      · exact hinner.noOutput e0 he0 o ho (heq.trans heq0.symm)
      · refine h.disjoint (hinner.closed.input e0 he0) ?_
        rw [heq0, ← heq, ← htip]
        exact hother.closed.output o0 ho0
    · rcases hnew.output_cases ho with ho | ⟨-, o0, ho0, htip⟩
      · refine h.disjoint (hinner.closed.output o ho) ?_
        rw [heq, ← heq0]
        exact hother.closed.input e0 he0
      · exact hother.noOutput e0 he0 o0 ho0 (htip ▸ heq.trans heq0.symm)
  · rcases hnew.output_cases ho with ho | ⟨hport, -⟩
    · obtain ⟨tips, -, hents⟩ := hnew.outputs
      refine (hinner.outputPorts o ho).trans_le ?_
      unfold PortedDag.numOutPorts
      rw [hents, length_append]
      exact Nat.le_add_right _ _
    · exact hport

/-- If the merge has filled the ports, then the plan is as it was expected to be before. -/
theorem Rewired.workersConnected (hmerge : mergeInto dag pop other = some dag') (hgraph : OuterGraph dag')
    (hfills : FillsPorts dag pop other) : WorkersConnected dag' := by
  obtain ⟨hports, hdist, -⟩ := merge_ports h.plan.distinct h.plan.ports h.flow hgraph hmerge
  refine ⟨hdist, hports.mpr hfills, fun v hv hpar inner₁ hinner1 => ?_, fun f hf hpar inner₁ hinner1 => ?_⟩
  · by_cases hpop : v = pop
    · subst hpop
      obtain rfl := some.inj (hnew.innerDag.symm.trans hinner1)
      exact hnew.workers h
    · rw [hnew.isParallel_of_ne hpop] at hpar
      rw [hnew.ports.merged.op v hpop] at hinner1
      exact h.plan.workers v ((hnew.mem_operators h).mp hv).2 hpar inner₁ hinner1
  · have hkept {g : Flow} (hg : g ∈ dag.flows) (hpar : isParallel dag' g.source.op = true)
        (hinner1 : inner₁ ∈ (dag'.op g.source.op).innerDag) : ∃ tip, inner₁.outputs.find g.source.port = some tip := by
      by_cases hpop : g.source.op = pop
      · rw [hpop, hnew.innerDag] at hinner1
        cases hinner1
        obtain ⟨tip, htip⟩ := h.plan.outputs g hg (hpop ▸ h.flow.2.2) inner (hpop ▸ h.innerDag)
        exact ⟨tip, (hnew.find_old (h.workers.outputPorts _ (Map.find_eq_some_iff.mp htip))).mpr htip⟩
      · rw [hnew.isParallel_of_ne hpop] at hpar
        rw [hnew.ports.merged.op _ hpop] at hinner1
        exact h.plan.outputs g hg hpar inner₁ hinner1
    rcases mem_mergedFlows.mp (hnew.outerFlows.mem_iff.mp hf) with
      ⟨hf, -⟩ | ⟨i, g, port, hg, -, rfl⟩ | ⟨i, g, port, hg, hport, rfl⟩
    · exact hkept hf hpar hinner1
    · have hg : g ∈ dag.flows := (Dag.mem_inFlows.mp (mem_of_getElem? hg)).1
      exact hkept (g := g) hg hpar hinner1
    · obtain rfl := some.inj (hnew.innerDag.symm.trans hinner1)
      obtain ⟨-, rfl⟩ := getElem?_range'_eq_some.mp hport
      obtain ⟨tip, htip, -⟩ := h.output (mem_of_mem_filter (mem_of_getElem? hg))
      exact ⟨tip, (hnew.find_new hg).mpr htip⟩

end Merge

end Jitq.Optimize

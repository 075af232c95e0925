import Jitq.Dag.Nested

namespace Jitq

open Graphs SortedMap List

/-! # Executions of plans with ports

A valuation gives each output port of each operator the stream that it emits.  It is an execution if every operator
obeys its meaning, a relation between the streams at its input ports and those at its output ports; the DAG inputs
are streams from outside.

* `Executes`, `Returns` — a valuation that all operators obey, and what it gives at the outputs;
* `exists_execution` — an execution can be rebuilt, operator by operator along the flows, if each operator can follow
  a change of its inputs;
* `Relocated.returns_iff` — the addresses of the operators do not matter. -/

variable {Op S : Type}

namespace PortedDag

/-- The streams at the input ports of an operator. -/
structure Feeds (dag : PortedDag Op) (data : ℕ → S) (rows : FlowTip → S) (v : ℕ) (ins : ℕ → S) : Prop where
  flow : ∀ f ∈ dag.flows, f.target.op = v → ins f.target.port = rows f.source
  input : ∀ e ∈ dag.inputs.entries, e.2.op = v → ins e.2.port = data e.1

variable (Emits : Op → (ℕ → S) → (ℕ → S) → Prop)

variable (dag : PortedDag Op)

/-- An operator emits what it should. -/
def Obeys (data : ℕ → S) (rows : FlowTip → S) (v : ℕ) :
    Prop :=
  ∃ ins, dag.Feeds data rows v ins ∧ Emits (dag.op v) ins fun port => rows ⟨v, port⟩

/-- A possible execution of a plan on some input data. -/
def Executes (data : ℕ → S) (rows : FlowTip → S) : Prop :=
  ∀ v ∈ dag.operators, dag.Obeys Emits data rows v

/-- The streams at the output ports. -/
def results (rows : FlowTip → S) : List (ℕ × S) :=
  dag.outputs.entries.map fun e => (e.1, rows e.2)

/-- A plan may return these streams. -/
def Returns (data : ℕ → S) (streams : List (ℕ × S)) : Prop :=
  ∃ rows, dag.Executes Emits data rows ∧ dag.results rows = streams

/-- No more than one flow or input leads to a port. -/
structure PortsSingle (dag : PortedDag Op) : Prop where
  flow : ∀ f ∈ dag.flows, ∀ g ∈ dag.flows, f.target = g.target → f.source = g.source
  input : ∀ f ∈ dag.flows, ∀ e ∈ dag.inputs.entries, f.target ≠ e.2
  inputs : ∀ e ∈ dag.inputs.entries, ∀ e' ∈ dag.inputs.entries, e.2 = e'.2 → e.1 = e'.1

variable {Emits : Op → (ℕ → S) → (ℕ → S) → Prop} {dag dag' : PortedDag Op} {data : ℕ → S}
    {rows rows' : FlowTip → S}
  {v : ℕ} {ins : ℕ → S}

theorem reaches_of_flow {f : Flow} (hf : f ∈ dag.flows) : Reaches dag.edges f.source.op f.target.op :=
  .single (mem_map.mpr ⟨f, hf, rfl⟩)

theorem Acyclic.source_ne_target (h : dag.Acyclic) {f : Flow} (hf : f ∈ dag.flows) : f.source.op ≠ f.target.op :=
  fun heq => h f.target.op (heq ▸ reaches_of_flow hf)

/-! ### Rebuilding an execution -/

/-- The streams at the ports after some operators before have changed what they emit. -/
theorem Feeds.exists_related (hports : dag.PortsSingle) {Same : S → S → Prop} (hrefl : ∀ s, Same s s)
    (h : dag.Feeds data rows v ins) (hsame : ∀ tip, Same (rows tip) (rows' tip)) :
    ∃ ins', dag.Feeds data rows' v ins' ∧ ∀ port, Same (ins port) (ins' port) := by
  refine ⟨fun port => if h : ∃ f ∈ dag.flows, f.target = ⟨v, port⟩ then rows' h.choose.source else ins port, ⟨?_, ?_⟩, ?_⟩
  · rintro f hf rfl
    have hex : ∃ g ∈ dag.flows, g.target = ⟨f.target.op, f.target.port⟩ := ⟨f, hf, rfl⟩
    rw [dif_pos hex]
    exact congrArg rows' (hports.flow _ hex.choose_spec.1 f hf hex.choose_spec.2)
  · rintro e he rfl
    have hnone : ¬ ∃ f ∈ dag.flows, f.target = ⟨e.2.op, e.2.port⟩ := by
      rintro ⟨f, hf, htgt⟩
      exact hports.input f hf e he htgt
    rw [dif_neg hnone]
    exact h.input e he rfl
  · intro port
    dsimp only
    split
    · next hex =>
      obtain ⟨hf, htgt⟩ := hex.choose_spec
      have hin : ins hex.choose.target.port = rows hex.choose.source := h.flow _ hf (congrArg FlowTip.op htgt)
      have hport : hex.choose.target.port = port := congrArg FlowTip.port htgt
      rw [show ins port = rows hex.choose.source from (congrArg ins hport.symm).trans hin]
      exact hsame _
    · exact hrefl _

/-- There is something to read at every port. -/
theorem PortsSingle.exists_feeds (hports : dag.PortsSingle) (data : ℕ → S) (rows : FlowTip → S) (v : ℕ) :
    ∃ ins, dag.Feeds data rows v ins := by
  refine ⟨fun port =>
    if h : ∃ f ∈ dag.flows, f.target = ⟨v, port⟩ then rows h.choose.source
    else if h : ∃ e ∈ dag.inputs.entries, e.2 = ⟨v, port⟩ then data h.choose.1 else rows ⟨v, port⟩, ⟨?_, ?_⟩⟩
  · rintro f hf rfl
    have hex : ∃ g ∈ dag.flows, g.target = ⟨f.target.op, f.target.port⟩ := ⟨f, hf, rfl⟩
    rw [dif_pos hex]
    exact congrArg rows (hports.flow _ hex.choose_spec.1 f hf hex.choose_spec.2)
  · rintro e he rfl
    have hnone : ¬ ∃ f ∈ dag.flows, f.target = ⟨e.2.op, e.2.port⟩ := by
      rintro ⟨f, hf, htgt⟩
      exact hports.input f hf e he htgt
    have hex : ∃ x ∈ dag.inputs.entries, x.2 = ⟨e.2.op, e.2.port⟩ := ⟨e, he, rfl⟩
    rw [dif_neg hnone, dif_pos hex]
    exact congrArg data (hports.inputs _ hex.choose_spec.1 e he hex.choose_spec.2)

/-- **Rebuilding an execution.**  Each operator answers a change of its inputs by a change of its outputs, in which it may
    be held to another meaning; it may rely on what is known of it before the change and on the operators before it, which
    have answered already.  The induction is on the rank of the operators that have been visited. -/
theorem exists_execution (hacyc : dag.Acyclic) (hports : dag.PortsSingle) (Same : S → S → Prop)
    (hrefl : ∀ s, Same s s) (Known : ℕ → (ℕ → S) → Prop)
    (hknown : ∀ v ∈ dag.operators, ∃ ins, dag.Feeds data rows v ins ∧ Known v ins) (op' : ℕ → Op)
    (hfollow : ∀ v ∈ dag.operators, ∀ ins ins' rows', Known v ins →
      (∀ port, Same (ins port) (ins' port)) → dag.Feeds data rows' v ins' →
      (∀ u ∈ dag.operators, Reaches dag.edges u v → { dag with op := op' }.Obeys Emits data rows' u) →
      ∃ outs', (∀ port, Same (rows ⟨v, port⟩) (outs' port)) ∧ Emits (op' v) ins' outs') :
    ∃ rows', (∀ tip, Same (rows tip) (rows' tip)) ∧ { dag with op := op' }.Executes Emits data rows' := by
  obtain ⟨rank, hrank⟩ := acyclic_iff_rank.mp hacyc
  have hupto : ∀ n, ∃ rows', (∀ tip, Same (rows tip) (rows' tip)) ∧
      ∀ v ∈ dag.operators, rank v < n → { dag with op := op' }.Obeys Emits data rows' v := by
    intro n
    induction n with
    | zero => exact ⟨rows, fun tip => hrefl _, fun v _ hv => absurd hv (Nat.not_lt_zero _)⟩
    | succ n ih =>
      obtain ⟨rows1, hsame, hbefore⟩ := ih
      -- the operators of rank `n` answer to what the others emit now
      have hanswer : ∀ v, v ∈ dag.operators ∧ rank v = n → ∃ ins outs, dag.Feeds data rows1 v ins ∧
          (∀ port, Same (rows ⟨v, port⟩) (outs port)) ∧ Emits (op' v) ins outs := by
        rintro v ⟨hv, rfl⟩
        obtain ⟨ins, hfeeds, hemits⟩ := hknown v hv
        obtain ⟨ins', hfeeds', hins⟩ := hfeeds.exists_related hports hrefl hsame
        obtain ⟨outs', houts, hemits'⟩ := hfollow v hv ins ins' rows1 hemits hins hfeeds'
          fun u hu hreach => hbefore u hu (hrank.lt_of_reaches hreach)
        exact ⟨ins', outs', hfeeds', houts, hemits'⟩
      choose ins outs hfeeds houts hemits using hanswer
      refine ⟨fun tip => if h : tip.op ∈ dag.operators ∧ rank tip.op = n then outs tip.op h tip.port else rows1 tip,
        fun tip => ?_, fun v hv hlt => ?_⟩
      · dsimp only
        split
        · next h => exact houts tip.op h tip.port
        · exact hsame tip
      · have hunchanged : ∀ f ∈ dag.flows, f.target.op = v → (if h : f.source.op ∈ dag.operators ∧ rank f.source.op = n
            then outs f.source.op h f.source.port else rows1 f.source) = rows1 f.source := by
          rintro f hf rfl
          have := hrank.lt_of_reaches (reaches_of_flow hf)
          rw [dif_neg]
          omega
        by_cases hn : v ∈ dag.operators ∧ rank v = n
        · refine ⟨ins v hn, ⟨fun f hf hop => ?_, (hfeeds v hn).input⟩, ?_⟩
          · exact ((hfeeds v hn).flow f hf hop).trans (hunchanged f hf hop).symm
          · simp only [dif_pos hn]
            exact hemits v hn
        · have hbelow : rank v < n := by
            have : rank v ≠ n := fun heq => hn ⟨hv, heq⟩
            omega
          obtain ⟨ins', hfeeds', hemits'⟩ := hbefore v hv hbelow
          refine ⟨ins', ⟨fun f hf hop => ?_, hfeeds'.input⟩, ?_⟩
          · exact (hfeeds'.flow f hf hop).trans (hunchanged f hf hop).symm
          · simp only [dif_neg hn]
            exact hemits'
  obtain ⟨rows', hsame, hall⟩ := hupto (dag.operators.toFinset.sup rank + 1)
  refine ⟨rows', hsame, fun v hv => hall v hv (Nat.lt_succ_of_le ?_)⟩
  exact Finset.le_sup (f := rank) (mem_toFinset.mpr hv)

/-! ### Renaming the operators -/

/-- The same plan with its operators at other addresses. -/
structure Relocated (ρ : ℕ → ℕ) (dag dag' : PortedDag Op) : Prop where
  injOn : Set.InjOn ρ { u | u ∈ dag.operators }
  operators : dag'.operators.Perm (dag.operators.map ρ)
  op : ∀ u ∈ dag.operators, dag'.op (ρ u) = dag.op u
  flows : dag'.flows.Perm (dag.flows.map (Flow.rename ρ))
  inputs : dag'.inputs.entries = dag.inputs.entries.map fun e => (e.1, e.2.rename ρ)
  outputs : dag'.outputs.entries = dag.outputs.entries.map fun e => (e.1, e.2.rename ρ)

namespace Relocated

variable {ρ ρ' : ℕ → ℕ} {dag'' : PortedDag Op}

theorem refl (dag : PortedDag Op) : Relocated id dag dag where
  injOn := Function.injective_id.injOn
  operators := by rw [map_id]
  op _ _ := rfl
  flows := by
    show dag.flows.Perm (dag.flows.map id)
    rw [map_id]
  inputs := (map_id _).symm
  outputs := (map_id _).symm

section

variable (h : Relocated ρ dag dag')

include h

theorem mem_operators {w : ℕ} : w ∈ dag'.operators ↔ ∃ u ∈ dag.operators, ρ u = w := by
  rw [h.operators.mem_iff, mem_map]

theorem mem_flows {g : Flow} : g ∈ dag'.flows ↔ ∃ f ∈ dag.flows, f.rename ρ = g := by
  rw [h.flows.mem_iff, mem_map]

theorem mem_inputs {e : ℕ × FlowTip} :
    e ∈ dag'.inputs.entries ↔ ∃ x ∈ dag.inputs.entries, (x.1, x.2.rename ρ) = e := by
  rw [h.inputs, mem_map]

theorem mem_outputs {e : ℕ × FlowTip} :
    e ∈ dag'.outputs.entries ↔ ∃ x ∈ dag.outputs.entries, (x.1, x.2.rename ρ) = e := by
  rw [h.outputs, mem_map]

theorem rename_mem_operators {u : ℕ} (hu : u ∈ dag.operators) : ρ u ∈ dag'.operators :=
  h.mem_operators.mpr ⟨u, hu, rfl⟩

theorem trans (h' : Relocated ρ' dag' dag'') : Relocated (ρ' ∘ ρ) dag dag'' where
  injOn := h'.injOn.comp h.injOn fun _ hu => h.rename_mem_operators hu
  operators := by
    rw [← map_map]
    exact h'.operators.trans (h.operators.map ρ')
  op u hu := (h'.op (ρ u) (h.rename_mem_operators hu)).trans (h.op u hu)
  flows := by
    have hmap : dag.flows.map (Flow.rename (ρ' ∘ ρ)) = (dag.flows.map (Flow.rename ρ)).map (Flow.rename ρ') := by
      rw [map_map]
      rfl
    rw [hmap]
    exact h'.flows.trans (h.flows.map _)
  inputs := by
    rw [h'.inputs, h.inputs, map_map]
    rfl
  outputs := by
    rw [h'.outputs, h.outputs, map_map]
    rfl

/-- Two tips of the plan are told apart. -/
theorem tip_injOn {tip tip' : FlowTip} (htip : tip.op ∈ dag.operators)
    (htip' : tip'.op ∈ dag.operators) (heq : tip.rename ρ = tip'.rename ρ) : tip = tip' := by
  have hop : tip.op = tip'.op := h.injOn htip htip' (congrArg FlowTip.op heq)
  have hport : (tip.rename ρ).port = (tip'.rename ρ).port := congrArg FlowTip.port heq
  cases tip'
  cases hop
  cases hport
  rfl

section

variable (hclosed : dag.Closed)

include hclosed

theorem closed : dag'.Closed where
  nodup := h.operators.nodup_iff.mpr (hclosed.nodup.map_on h.injOn)
  source g hg := by
    obtain ⟨f, hf, rfl⟩ := h.mem_flows.mp hg
    exact h.rename_mem_operators (hclosed.source f hf)
  target g hg := by
    obtain ⟨f, hf, rfl⟩ := h.mem_flows.mp hg
    exact h.rename_mem_operators (hclosed.target f hf)
  input e he := by
    obtain ⟨x, hx, rfl⟩ := h.mem_inputs.mp he
    exact h.rename_mem_operators (hclosed.input x hx)
  output e he := by
    obtain ⟨x, hx, rfl⟩ := h.mem_outputs.mp he
    exact h.rename_mem_operators (hclosed.output x hx)

theorem acyclic (hacyc : dag.Acyclic) : dag'.Acyclic := by
  have hmap := Graphs.Acyclic.map hacyc h.injOn fun e he => by
    obtain ⟨f, hf, rfl⟩ := mem_map.mp he
    exact ⟨hclosed.source f hf, hclosed.target f hf⟩
  refine hmap.mono fun e he => ?_
  obtain ⟨g, hg, rfl⟩ := mem_map.mp he
  obtain ⟨f, hf, rfl⟩ := h.mem_flows.mp hg
  exact mem_map.mpr ⟨_, mem_map_of_mem hf, rfl⟩

theorem portsSingle (hports : dag.PortsSingle) : dag'.PortsSingle where
  flow g hg g' hg' heq := by
    obtain ⟨f, hf, rfl⟩ := h.mem_flows.mp hg
    obtain ⟨f', hf', rfl⟩ := h.mem_flows.mp hg'
    have htgt := h.tip_injOn (hclosed.target f hf) (hclosed.target f' hf') heq
    exact congrArg (FlowTip.rename ρ) (hports.flow f hf f' hf' htgt)
  input g hg e he heq := by
    obtain ⟨x, hx, rfl⟩ := h.mem_inputs.mp he
    obtain ⟨f, hf, rfl⟩ := h.mem_flows.mp hg
    exact hports.input f hf x hx (h.tip_injOn (hclosed.target f hf) (hclosed.input x hx) heq)
  inputs e he e' he' heq := by
    obtain ⟨x, hx, rfl⟩ := h.mem_inputs.mp he
    obtain ⟨x', hx', rfl⟩ := h.mem_inputs.mp he'
    exact hports.inputs x hx x' hx' (h.tip_injOn (hclosed.input x hx) (hclosed.input x' hx') heq)

theorem inDegree {u : ℕ} (hu : u ∈ dag.operators) : dag'.graph.inDegree (ρ u) = dag.graph.inDegree u := by
  have hfilt := (h.flows.filter fun g => g.target.op = ρ u).length_eq
  rw [filter_map, length_map] at hfilt
  refine hfilt.trans (congrArg List.length (filter_congr fun f hf => ?_))
  exact decide_eq_decide.mpr ⟨fun heq => h.injOn (hclosed.target f hf) hu heq, fun heq => congrArg ρ heq⟩

theorem outDegree {u : ℕ} (hu : u ∈ dag.operators) : dag'.graph.outDegree (ρ u) = dag.graph.outDegree u := by
  have hfilt := (h.flows.filter fun g => g.source.op = ρ u).length_eq
  rw [filter_map, length_map] at hfilt
  refine hfilt.trans (congrArg List.length (filter_congr fun f hf => ?_))
  exact decide_eq_decide.mpr ⟨fun heq => h.injOn (hclosed.source f hf) hu heq, fun heq => congrArg ρ heq⟩

theorem feeds_iff
    (hrows : ∀ tip : FlowTip, tip.op ∈ dag.operators → rows tip = rows' (tip.rename ρ)) {u : ℕ} (hu : u ∈ dag.operators) :
    dag'.Feeds data rows' (ρ u) ins ↔ dag.Feeds data rows u ins := by
  constructor
  · intro hfeeds
    refine ⟨?_, ?_⟩
    · rintro f hf rfl
      rw [hrows f.source (hclosed.source f hf)]
      exact hfeeds.flow (f.rename ρ) (h.mem_flows.mpr ⟨f, hf, rfl⟩) rfl
    · rintro e he rfl
      exact hfeeds.input (e.1, e.2.rename ρ) (h.mem_inputs.mpr ⟨e, he, rfl⟩) rfl
  · intro hfeeds
    refine ⟨fun g hg hop => ?_, fun e he hop => ?_⟩
    · obtain ⟨f, hf, rfl⟩ := h.mem_flows.mp hg
      have hflow := hfeeds.flow f hf (h.injOn (hclosed.target f hf) hu hop)
      rwa [hrows f.source (hclosed.source f hf)] at hflow
    · obtain ⟨x, hx, rfl⟩ := h.mem_inputs.mp he
      exact hfeeds.input x hx (h.injOn (hclosed.input x hx) hu hop)

theorem executes_iff (hrows : ∀ tip : FlowTip, tip.op ∈ dag.operators → rows tip = rows' (tip.rename ρ)) :
    dag'.Executes Emits data rows' ↔ dag.Executes Emits data rows := by
  have hobeys : ∀ u ∈ dag.operators, dag'.Obeys Emits data rows' (ρ u) ↔ dag.Obeys Emits data rows u := by
    intro u hu
    have houts : (fun port => rows ⟨u, port⟩) = fun port => rows' ⟨ρ u, port⟩ := funext fun port => hrows ⟨u, port⟩ hu
    unfold Obeys
    rw [h.op u hu, houts]
    exact exists_congr fun ins => and_congr_left' (h.feeds_iff hclosed hrows hu)
  constructor
  · intro hexec u hu
    exact (hobeys u hu).mp (hexec (ρ u) (h.rename_mem_operators hu))
  · intro hexec w hw
    obtain ⟨u, hu, rfl⟩ := h.mem_operators.mp hw
    exact (hobeys u hu).mpr (hexec u hu)

theorem results_eq (hrows : ∀ tip : FlowTip, tip.op ∈ dag.operators → rows tip = rows' (tip.rename ρ)) :
    dag'.results rows' = dag.results rows := by
  unfold results
  rw [h.outputs, map_map]
  refine map_congr_left fun e he => ?_
  rw [hrows e.2 (hclosed.output e he)]
  rfl

/-- **The addresses of the operators do not matter.** -/
theorem returns_iff {streams : List (ℕ × S)} : dag'.Returns Emits data streams ↔ dag.Returns Emits data streams := by
  constructor
  · rintro ⟨rows', hexec, hresults⟩
    refine ⟨fun tip => rows' (tip.rename ρ), ?_, ?_⟩
    · exact (h.executes_iff hclosed fun _ _ => rfl).mp hexec
    · rw [← hresults]
      exact (h.results_eq hclosed fun _ _ => rfl).symm
  · rintro ⟨rows, hexec, hresults⟩
    have hrows : ∀ tip : FlowTip, tip.op ∈ dag.operators →
        rows tip = rows ⟨Function.invFunOn ρ { u | u ∈ dag.operators } (ρ tip.op), tip.port⟩ := by
      intro tip htip
      rw [h.injOn.leftInvOn_invFunOn htip]
    refine ⟨fun tip => rows ⟨Function.invFunOn ρ { u | u ∈ dag.operators } tip.op, tip.port⟩, ?_, ?_⟩
    · exact (h.executes_iff hclosed hrows).mpr hexec
    · rw [← hresults]
      exact h.results_eq hclosed hrows

end

end

end Relocated

end PortedDag

end Jitq

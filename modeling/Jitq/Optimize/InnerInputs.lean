import Jitq.Lib.Firsts
import Jitq.Optimize.Canonicalize

namespace Jitq.Optimize

open SortedMap Partial SortBy Firsts NestedDag List

/-! # The order of the inputs of inner DAGs

`Canonicalize` numbers the input ports of an operator with an inner DAG in the order of their first
consumers in the inner DAG.

* `orderInputs_eq` — the effect on one operator;
* `OrderedUpTo` — the plan when some operators have been visited;
* `foldlM_orderInputs` — the effect of the loop over all operators;
* `Numbered.orderedInputs_ordered` — ports that are in order stay as they are;
* `Numbered.Matching.portOrder` — the order does not depend on the numbers that the ports had. -/

variable {n : ℕ}

/-- The consumers of an input in order. -/
def consumersOf (inner : NestedDag n) (i : ℕ) : List FlowTip := sortBy (tipKey inner.idOf) (inner.inputs.equalRange i)

/-- (ID, port) of the first consumer. -/
def portKey (inner : NestedDag n) (i : ℕ) : ℕ ×ₗ ℕ := tipKey inner.idOf ((consumersOf inner i).headD ⟨0, 0⟩)

/-- The input ports in the order of their first consumers. -/
def portOrder (inner : NestedDag n) (numInPorts : ℕ) : List ℕ := sortBy (portKey inner) (range numInPorts)

/-- The inputs when the ports have been renumbered. -/
def orderedInputs (inner : NestedDag n) (numInPorts : ℕ) : MultiMap ℕ FlowTip where
  entries := (portOrder inner numInPorts).zipIdx.flatMap fun p =>
    (consumersOf inner p.1).map fun tip => (p.2, tip)
  sorted := by
    generalize portOrder inner numInPorts = ports
    suffices ∀ start, ((ports.zipIdx start).flatMap fun p =>
        (consumersOf inner p.1).map fun tip => (p.2, tip)).Pairwise fun x y => x.1 ≤ y.1 from this 0
    induction ports with
    | nil => exact fun _ => List.Pairwise.nil
    | cons i ports ih =>
      intro start
      rw [zipIdx_cons, flatMap_cons, pairwise_append]
      refine ⟨pairwise_map.mpr (pairwise_of_forall fun _ _ => le_rfl), ih (start + 1), ?_⟩
      intro x hx y hy
      obtain ⟨tip, -, rfl⟩ := mem_map.mp hx
      obtain ⟨p, hp, hy⟩ := mem_flatMap.mp hy
      obtain ⟨tip', -, rfl⟩ := mem_map.mp hy
      exact (Nat.le_succ start).trans (le_snd_of_mem_zipIdx hp)

variable {inner : NestedDag n} {i : ℕ}

theorem mem_consumersOf {tip : FlowTip} : tip ∈ consumersOf inner i ↔ (i, tip) ∈ inner.inputs.entries := by
  rw [consumersOf, mem_sortBy, MultiMap.mem_equalRange]

theorem exists_of_mem_orderedInputs {k : ℕ} {e : ℕ × FlowTip}
    (h : e ∈ (orderedInputs inner k).entries) : ∃ i, (i, e.2) ∈ inner.inputs.entries := by
  obtain ⟨p, -, hp⟩ := mem_flatMap.mp h
  obtain ⟨tip, htip, rfl⟩ := mem_map.mp hp
  exact ⟨p.1, mem_consumersOf.mp htip⟩

variable {canonicalizeInner : NestedDag n → Option (NestedDag n)}

/-- The effect of the loop on one operator. -/
theorem orderInputs_eq
    {dag : OpDag (NestedDag n)} {v k : ℕ} {inner c : NestedDag n} {source : ℕ → FlowTip}
    (hinner : (dag.op v).innerDag = some inner) (hcanon : canonicalizeInner inner = some c)
    (hk : (dag.op v).operator.cls.numInPorts = k) (hv : v ∈ dag.operators)
    (hflow : ∀ i < k, dag.graph.inFlowOn v i = some ⟨source i, ⟨v, i⟩⟩)
    (hsrc : ∀ i < k, (source i).op ∈ dag.operators) (hacyc : dag.Acyclic)
    (hconsumer : ∀ i < k, c.inputs.equalRange i ≠ [])
    (htip : ∀ e ∈ c.inputs.entries, e.2.op ∈ c.operators) :
    orderInputs canonicalizeInner dag v = some { dag with
      flows := (dag.flows.filter fun f => f.target.op ≠ v) ++
        (portOrder c k).zipIdx.map fun p => ⟨source p.1, ⟨v, p.2⟩⟩
      op := Function.update dag.op v
        ⟨(dag.op v).operator, some (c.setInputs (orderedInputs c k))⟩ } := by
  have htemp : ((range k).mapM fun i => (dag.graph.inFlowOn v i).map fun f =>
      InnerInput.mk f.source (c.inputs.equalRange i)) =
        some ((range k).map fun i => InnerInput.mk (source i) (c.inputs.equalRange i)) :=
    mapM_eq_some_map fun i hi => by rw [hflow i (mem_range.mp hi), Option.map_some]
  have hsorted : sortBy (InnerInput.key c.idOf) (((range k).map fun i =>
      InnerInput.mk (source i) (c.inputs.equalRange i)).map (InnerInput.sortConsumers c.idOf)) =
        (portOrder c k).map fun i => InnerInput.mk (source i) (consumersOf c i) := by
    rw [map_map]
    exact map_sortBy fun i _ => rfl
  have hnonempty : ∀ input ∈ ((range k).map fun i =>
      InnerInput.mk (source i) (c.inputs.equalRange i)).map (InnerInput.sortConsumers c.idOf),
        input.consumers ≠ [] := by
    intro input hinp
    rw [map_map] at hinp
    obtain ⟨i, hi, rfl⟩ := mem_map.mp hinp
    intro hnil
    exact hconsumer i (mem_range.mp hi) (((sortBy_perm _ _).symm.trans (List.Perm.of_eq hnil)).eq_nil)
  have hports : ∀ p ∈ (portOrder c k).zipIdx, p.1 < k := fun p hp =>
    mem_range.mp (mem_sortBy.mp (fst_mem_of_mem_zipIdx hp))
  -- the flows that are added again close no cycle
  have hadd : ((portOrder c k).map fun i => InnerInput.mk (source i) (consumersOf c i)).zipIdx.foldlM
      (fun (dag : OpDag (NestedDag n)) p => dag.addFlow p.1.source ⟨v, p.2⟩)
        { dag with flows := dag.flows.filter fun f => f.target.op ≠ v } =
      some { dag with flows := (dag.flows.filter fun f => f.target.op ≠ v) ++
        (portOrder c k).zipIdx.map fun p => ⟨source p.1, ⟨v, p.2⟩⟩ } := by
    rw [zipIdx_map, foldlM_map]
    refine (foldlM_map (f := fun p : ℕ × ℕ => (⟨source p.1, ⟨v, p.2⟩⟩ : Flow))
      (g := fun (dag : OpDag (NestedDag n)) f => dag.addFlow f.source f.target)).symm.trans ?_
    refine PortedDag.foldlM_addFlow (Graphs.Acyclic.mono hacyc fun e he => ?_) ?_
    · obtain ⟨f, hf, rfl⟩ := mem_map.mp he
      rcases mem_append.mp hf with hf | hf
      · exact mem_map_of_mem (mem_filter.mp hf).1
      · obtain ⟨p, hp, rfl⟩ := mem_map.mp hf
        exact mem_map.mpr ⟨_, (Dag.mem_of_inFlowOn (hflow p.1 (hports p hp))).1, rfl⟩
    · intro f hf
      obtain ⟨p, hp, rfl⟩ := mem_map.mp hf
      exact ⟨hsrc p.1 (hports p hp), hv⟩
  have hins : (((portOrder c k).map fun i => InnerInput.mk (source i) (consumersOf c i)).zipIdx.flatMap
      fun p => p.1.consumers.map fun tip => (p.2, tip)) = (orderedInputs c k).entries := by
    rw [zipIdx_map, flatMap_map]
    rfl
  have hfill : (orderedInputs c k).entries.foldlM (fun inner e => inner.addInput e.1 e.2)
      (c.setInputs ∅) = some (c.setInputs (orderedInputs c k)) :=
    NestedDag.foldlM_addInput fun e he =>
      let ⟨i, hi⟩ := exists_of_mem_orderedInputs he
      htip (i, e.2) hi
  unfold orderInputs
  rw [hinner]
  simp only [hcanon, hk, htemp, hsorted, hadd, hins, hfill, Option.bind_eq_bind, Option.bind_some]
  rw [guard, if_pos (.inr hnonempty)]
  rfl

/-! ### All operators -/

variable {dag : OpDag (NestedDag n)} {canonical : NestedDag n → NestedDag n}

/-- The new number of an input port of an operator, whose inner DAG is made `canonical`. -/
def newPort (dag : OpDag (NestedDag n)) (canonical : NestedDag n → NestedDag n) (v i : ℕ) : ℕ :=
  match (dag.op v).innerDag with
  | none => i
  | some inner => (portOrder (canonical inner) (dag.op v).operator.cls.numInPorts).idxOf i

def retarget (dag : OpDag (NestedDag n)) (canonical : NestedDag n → NestedDag n) (f : Flow) : Flow :=
  ⟨f.source, ⟨f.target.op, newPort dag canonical f.target.op f.target.port⟩⟩

/-- An operator whose inner DAG has been replaced. -/
def orderedVertex (dag : OpDag (NestedDag n)) (canonical : NestedDag n → NestedDag n) (v : ℕ) :
    Vertex (NestedDag n) :=
  ⟨(dag.op v).operator, (dag.op v).innerDag.map fun inner =>
    (canonical inner).setInputs (orderedInputs (canonical inner) (dag.op v).operator.cls.numInPorts)⟩

/-- The operators of `dag` can be visited, and `canonical` gives their canonical inner DAGs. -/
structure Orderable (canonicalizeInner : NestedDag n → Option (NestedDag n))
    (dag : OpDag (NestedDag n)) (canonical : NestedDag n → NestedDag n) : Prop where
  closed : dag.Closed
  acyclic : dag.Acyclic
  target : (dag.flows.map Flow.target).Nodup
  inner : ∀ v ∈ dag.operators, ∀ inner ∈ (dag.op v).innerDag, canonicalizeInner inner = some (canonical inner)
  fed : ∀ v ∈ dag.operators, ∀ inner ∈ (dag.op v).innerDag,
    ∀ i < (dag.op v).operator.cls.numInPorts, ∃ f ∈ dag.flows, f.target = ⟨v, i⟩
  port : ∀ f ∈ dag.flows, ∀ inner ∈ (dag.op f.target.op).innerDag,
    f.target.port < (dag.op f.target.op).operator.cls.numInPorts
  consumer : ∀ v ∈ dag.operators, ∀ inner ∈ (dag.op v).innerDag,
    ∀ i < (dag.op v).operator.cls.numInPorts, (canonical inner).inputs.equalRange i ≠ []
  tip : ∀ v ∈ dag.operators, ∀ inner ∈ (dag.op v).innerDag,
    ∀ e ∈ (canonical inner).inputs.entries, e.2.op ∈ (canonical inner).operators

/-- The operators of `done` have been visited. -/
structure OrderedUpTo (dag : OpDag (NestedDag n)) (canonical : NestedDag n → NestedDag n)
    (done : List ℕ) (dag' : OpDag (NestedDag n)) : Prop where
  operators : dag'.operators = dag.operators
  op : dag'.op = fun v => if v ∈ done then orderedVertex dag canonical v else dag.op v
  flows : ∀ v, (dag'.graph.inFlows v).Perm
    (if v ∈ done then (dag.graph.inFlows v).map (retarget dag canonical) else dag.graph.inFlows v)
  inputs : dag'.inputs = dag.inputs
  outputs : dag'.outputs = dag.outputs

theorem inFlowsOn_eq {Op : Type} {dag : PortedDag Op} (h : (dag.flows.map Flow.target).Nodup) {f : Flow}
    (hf : f ∈ dag.flows) : dag.graph.inFlowsOn f.target.op f.target.port = [f] := by
  refine perm_singleton.mp ((perm_ext_iff_of_nodup ?_ (nodup_singleton f)).mpr fun g => ?_)
  · exact ((List.Nodup.of_map _ h).filter _).filter _
  · have hmem : g ∈ dag.graph.inFlowsOn f.target.op f.target.port ↔
        g ∈ dag.flows ∧ g.target.op = f.target.op ∧ g.target.port = f.target.port := by
      simp [Dag.inFlowsOn, PortedDag.graph, and_assoc]
    rw [hmem, mem_singleton]
    constructor
    · rintro ⟨hg, hop, hport⟩
      exact inj_on_of_nodup_map h hg hf (congrArg₂ FlowTip.mk hop hport)
    · rintro rfl
      exact ⟨hf, rfl, rfl⟩

theorem zipIdx_map_eq {α β : Type} [DecidableEq α] {l : List α} (h : l.Nodup) (g : α × ℕ → β) :
    l.zipIdx.map g = l.map fun a => g (a, l.idxOf a) := by
  refine ext_getElem (by simp) fun i hi hi' => ?_
  simp [h.idxOf_getElem]

theorem portOrder_perm (inner : NestedDag n) (k : ℕ) : (portOrder inner k).Perm (range k) := sortBy_perm _ _

namespace OrderedUpTo

variable {canonicalizeInner : NestedDag n → Option (NestedDag n)} {done : List ℕ}
  {dag' : OpDag (NestedDag n)} {v : ℕ}

theorem visit_none (hdone : OrderedUpTo dag canonical done dag')
    (hnone : (dag.op v).innerDag = none) : OrderedUpTo dag canonical (done ++ [v]) dag' := by
  have hretarget : (dag.graph.inFlows v).map (retarget dag canonical) = dag.graph.inFlows v := by
    refine (map_congr_left fun f hf => ?_).trans (map_id _)
    obtain ⟨-, rfl⟩ := Dag.mem_inFlows.mp hf
    unfold retarget newPort
    rw [hnone]
    rfl
  have hvertex : orderedVertex dag canonical v = dag.op v := by
    unfold orderedVertex
    rw [hnone]
    show Vertex.mk (dag.op v).operator none = dag.op v
    rw [← hnone]
  refine ⟨hdone.operators, ?_, fun u => ?_, hdone.inputs, hdone.outputs⟩
  · rw [hdone.op]
    funext u
    by_cases huv : u = v
    · simp [huv, hvertex]
    · simp [huv]
  · have hflows := hdone.flows u
    by_cases huv : u = v
    · subst huv
      simpa [hretarget] using hflows
    · simpa [huv] using hflows

/-- The in-flows of an operator with an inner DAG, by their ports. -/
theorem inFlows_perm_range (h : Orderable canonicalizeInner dag canonical)
    (hinner : (dag.op v).innerDag = some inner) {source : ℕ → FlowTip}
    (hsrc : ∀ i < (dag.op v).operator.cls.numInPorts, ⟨source i, ⟨v, i⟩⟩ ∈ dag.flows) : (dag.graph.inFlows v).Perm
      ((range (dag.op v).operator.cls.numInPorts).map fun i => ⟨source i, ⟨v, i⟩⟩) := by
  have hnd : (dag.graph.inFlows v).Nodup := (List.Nodup.of_map _ h.target).filter _
  refine (perm_ext_iff_of_nodup hnd ?_).mpr fun f => ?_
  · exact nodup_range.map fun i j heq => congrArg (fun f : Flow => f.target.port) heq
  · rw [mem_map]
    constructor
    · intro hf
      obtain ⟨hflow, rfl⟩ := Dag.mem_inFlows.mp hf
      have hport := h.port f hflow inner hinner
      exact ⟨f.target.port, mem_range.mpr hport, inj_on_of_nodup_map h.target (hsrc _ hport) hflow rfl⟩
    · rintro ⟨i, hi, rfl⟩
      exact Dag.mem_inFlows.mpr ⟨hsrc i (mem_range.mp hi), rfl⟩

/-- The tips that feed the ports. -/
theorem exists_source (h : Orderable canonicalizeInner dag canonical) (hv : v ∈ dag.operators)
    (hinner : (dag.op v).innerDag = some inner) : ∃ source : ℕ → FlowTip,
      ∀ i < (dag.op v).operator.cls.numInPorts, ⟨source i, ⟨v, i⟩⟩ ∈ dag.flows := by
  refine ⟨fun i => ((dag.graph.inFlowOn v i).map Flow.source).getD ⟨0, 0⟩, fun i hi => ?_⟩
  obtain ⟨f, hf, htgt⟩ := h.fed v hv inner hinner i hi
  have hflow : dag.graph.inFlowOn v i = some f := by
    refine Dag.single_eq_some.mpr ?_
    have heq := inFlowsOn_eq h.target hf
    rwa [htgt] at heq
  dsimp only
  rw [hflow, ← htgt]
  exact hf

theorem visit_some (h : Orderable canonicalizeInner dag canonical)
    (hdone : OrderedUpTo dag canonical done dag') (hv : v ∈ dag.operators) (hnew : v ∉ done)
    (hinner : (dag.op v).innerDag = some inner) :
    ∃ dag'', orderInputs canonicalizeInner dag' v = some dag'' ∧ OrderedUpTo dag canonical (done ++ [v]) dag'' := by
  have hop : dag'.op v = dag.op v := by rw [hdone.op]; exact if_neg hnew
  generalize hk : (dag.op v).operator.cls.numInPorts = k
  obtain ⟨source, hsrc⟩ := exists_source h hv hinner
  have hrange := inFlows_perm_range h hinner hsrc
  rw [hk] at hsrc hrange
  have hperm := hdone.flows v
  rw [if_neg hnew] at hperm
  have hflow : ∀ i < k, dag'.graph.inFlowOn v i = some ⟨source i, ⟨v, i⟩⟩ := by
    intro i hi
    refine Dag.single_eq_some.mpr (perm_singleton.mp ((hperm.filter _).trans ?_))
    exact List.Perm.of_eq (inFlowsOn_eq h.target (hsrc i hi))
  have hacyc : dag'.Acyclic := Graphs.Acyclic.mono h.acyclic fun e he => by
    obtain ⟨f, hf, rfl⟩ := mem_map.mp he
    have hmem := (hdone.flows f.target.op).mem_iff.mp (Dag.mem_inFlows.mpr ⟨hf, rfl⟩)
    split at hmem
    · obtain ⟨g, hg, heq⟩ := mem_map.mp hmem
      rw [← heq]
      exact mem_map.mpr ⟨g, (Dag.mem_inFlows.mp hg).1, rfl⟩
    · exact mem_map.mpr ⟨f, (Dag.mem_inFlows.mp hmem).1, rfl⟩
  have hconsumer := h.consumer v hv inner hinner
  rw [hk] at hconsumer
  refine ⟨_, orderInputs_eq (hop ▸ hinner) (h.inner v hv inner hinner) (hop ▸ hk) (hdone.operators ▸ hv) hflow
    (fun i hi => hdone.operators ▸ h.closed.source _ (hsrc i hi)) hacyc hconsumer
    (h.tip v hv inner hinner), hdone.operators, ?_, ?_, hdone.inputs, hdone.outputs⟩
  · funext u
    show Function.update dag'.op v _ u = _
    by_cases huv : u = v
    · subst huv
      rw [Function.update_self, if_pos (mem_append_right _ (mem_singleton_self u)), hop, orderedVertex, hinner, hk]
      rfl
    · rw [Function.update_of_ne huv, hdone.op]
      simp [huv]
  · -- the flows of the other operators stay, and those of `v` are put in the order of the ports
    intro u
    show (((dag'.flows.filter fun f => f.target.op ≠ v) ++ _).filter _).Perm _
    have hown : ∀ f ∈ (portOrder (canonical inner) k).zipIdx.map fun p => (⟨source p.1, ⟨v, p.2⟩⟩ : Flow),
        f.target.op = v := by
      intro f hf
      obtain ⟨p, -, rfl⟩ := mem_map.mp hf
      rfl
    rw [filter_append, filter_filter]
    by_cases huv : u = v
    · subst huv
      rw [filter_eq_nil_iff.mpr (by simp), nil_append, filter_eq_self.mpr (by simpa using hown),
        zipIdx_map_eq ((portOrder_perm _ k).nodup_iff.mpr nodup_range),
        if_pos (mem_append_right _ (mem_singleton_self u))]
      refine ((portOrder_perm _ k).map _).trans (List.Perm.trans (List.Perm.of_eq ?_) (hrange.symm.map _))
      rw [map_map]
      refine map_congr_left fun i _ => ?_
      show _ = retarget dag canonical ⟨source i, ⟨u, i⟩⟩
      rw [retarget, newPort, hinner, hk]
    · have hothers : (dag'.flows.filter fun f => decide (f.target.op = u) && decide (f.target.op ≠ v)) =
          dag'.graph.inFlows u := filter_congr fun f _ => by
        by_cases hf : f.target.op = u
        · simp [hf, huv]
        · simp [hf]
      rw [hothers, filter_eq_nil_iff.mpr fun f hf => by simp [hown f hf, Ne.symm huv], append_nil]
      simpa [huv] using hdone.flows u

end OrderedUpTo

/-- The loop over all operators succeeds. -/
theorem foldlM_orderInputs (h : Orderable canonicalizeInner dag canonical) :
    ∃ dag', dag.operators.foldlM (orderInputs canonicalizeInner) dag = some dag' ∧
      OrderedUpTo dag canonical dag.operators dag' := by
  suffices ∀ done rest dag1, dag.operators = done ++ rest → OrderedUpTo dag canonical done dag1 →
      ∃ dag', rest.foldlM (orderInputs canonicalizeInner) dag1 = some dag' ∧
        OrderedUpTo dag canonical dag.operators dag' by
    exact this [] dag.operators dag rfl ⟨rfl, by simp, by simp, rfl, rfl⟩
  intro done rest
  induction rest generalizing done with
  | nil =>
    intro dag1 hops hdone
    rw [append_nil] at hops
    exact ⟨dag1, rfl, hops ▸ hdone⟩
  | cons v rest ih =>
    intro dag1 hops hdone
    have hv : v ∈ dag.operators := by simp [hops]
    have hnew : v ∉ done := by
      have hnd := h.closed.nodup
      rw [hops] at hnd
      exact fun hmem => (nodup_append.mp hnd).2.2 v hmem v mem_cons_self rfl
    obtain ⟨dag2, hvisit, hdone'⟩ : ∃ dag2, orderInputs canonicalizeInner dag1 v = some dag2 ∧
        OrderedUpTo dag canonical (done ++ [v]) dag2 := by
      cases hinner : (dag.op v).innerDag with
      | none =>
        refine ⟨dag1, ?_, hdone.visit_none hinner⟩
        have hop : dag1.op v = dag.op v := by rw [hdone.op]; exact if_neg hnew
        rw [orderInputs, hop, hinner]
      | some inner => exact hdone.visit_some h hv hnew hinner
    rw [foldlM_cons, hvisit, Option.bind_eq_bind, Option.bind_some]
    exact ih (done ++ [v]) dag2 (by simp [hops]) hdone'

/-! ### Numbered ports -/

/-- What the renumbering of the ports needs from the canonical inner DAG. -/
structure Numbered (c : NestedDag n) (k : ℕ) : Prop where
  tip : ∀ e ∈ c.inputs.entries, e.2.op ∈ c.operators
  nodup : (c.inputs.entries.map Prod.snd).Nodup
  ids : ∀ u ∈ c.operators, ∀ v ∈ c.operators, c.idOf u = c.idOf v → u = v
  keys : ∀ i, i ∈ c.inputs.keys ↔ i < k

namespace Numbered

variable {c : NestedDag n} {k : ℕ}

theorem distinct_tips (h : Numbered c k) (i : ℕ) : Distinct (tipKey c.idOf) (c.inputs.equalRange i) := by
  intro t ht t' ht' heq
  obtain ⟨hid, hport⟩ := Prod.mk.inj (toLex_inj.mp heq)
  rw [MultiMap.mem_equalRange] at ht ht'
  exact congrArg₂ FlowTip.mk (h.ids _ (h.tip _ ht) _ (h.tip _ ht') hid) hport

theorem equalRange_ne_nil (h : Numbered c k) (hi : i < k) : c.inputs.equalRange i ≠ [] := by
  obtain ⟨tip, htip⟩ := MultiMap.mem_keys.mp ((h.keys i).mpr hi)
  exact ne_nil_of_mem (MultiMap.mem_equalRange.mpr htip)

theorem exists_first (h : Numbered c k) (hi : i < k) : ∃ tip rest,
    consumersOf c i = tip :: rest ∧ portKey c i = tipKey c.idOf tip ∧ (i, tip) ∈ c.inputs.entries := by
  cases hconsumers : consumersOf c i with
  | nil =>
    refine absurd (List.Perm.eq_nil ?_) (h.equalRange_ne_nil hi)
    exact (sortBy_perm _ _).symm.trans (List.Perm.of_eq hconsumers)
  | cons tip rest =>
    refine ⟨tip, rest, rfl, ?_, mem_consumersOf.mp (hconsumers ▸ mem_cons_self)⟩
    rw [portKey, hconsumers, headD_cons]

theorem distinct_ports (h : Numbered c k) : Distinct (portKey c) (range k) := by
  intro i hi j hj heq
  obtain ⟨tip, -, -, hkey, hmem⟩ := h.exists_first (mem_range.mp hi)
  obtain ⟨tip', -, -, hkey', hmem'⟩ := h.exists_first (mem_range.mp hj)
  rw [hkey, hkey'] at heq
  obtain ⟨hid, hport⟩ := Prod.mk.inj (toLex_inj.mp heq)
  have htip : tip = tip' := congrArg₂ FlowTip.mk (h.ids _ (h.tip _ hmem) _ (h.tip _ hmem') hid) hport
  exact congrArg Prod.fst (inj_on_of_nodup_map h.nodup hmem hmem' htip)

theorem nodup_portOrder (c : NestedDag n) (k : ℕ) : (portOrder c k).Nodup :=
  (portOrder_perm c k).nodup_iff.mpr nodup_range

theorem entries_orderedInputs (c : NestedDag n) (k : ℕ) : (orderedInputs c k).entries =
    (portOrder c k).flatMap fun i => (consumersOf c i).map fun tip => ((portOrder c k).idxOf i, tip) := by
  show (portOrder c k).zipIdx.flatMap _ = _
  rw [flatMap_def, zipIdx_map_eq (nodup_portOrder c k), ← flatMap_def]

/-- The renumbered inputs. -/
theorem orderedInputs_perm (h : Numbered c k) : (orderedInputs c k).entries.Perm
    (c.inputs.entries.map fun e => ((portOrder c k).idxOf e.1, e.2)) := by
  have hgrps : ((range k).flatMap fun i => c.inputs.entries.filter fun e => e.1 = i).Perm
      c.inputs.entries := perm_flatMap_filter Prod.fst nodup_range
    fun e he => mem_range.mpr ((h.keys e.1).mp (MultiMap.mem_keys.mpr ⟨e.2, he⟩))
  rw [entries_orderedInputs]
  refine ((portOrder_perm c k).flatMap_right _).trans (List.Perm.trans ?_ (hgrps.map _))
  rw [map_flatMap]
  refine List.Perm.flatMap_left _ fun i _ => ((sortBy_perm _ _).map _).trans (List.Perm.of_eq ?_)
  rw [MultiMap.equalRange, map_map]
  refine map_congr_left fun e he => ?_
  have hkey : e.1 = i := of_decide_eq_true (mem_filter.mp he).2
  show ((portOrder c k).idxOf i, e.2) = ((portOrder c k).idxOf e.1, e.2)
  rw [hkey]

/-- The new numbers are the old ones in another order. -/
theorem map_idxOf_perm (c : NestedDag n) (k : ℕ) :
    ((range k).map fun i => (portOrder c k).idxOf i).Perm (range k) := by
  refine ((portOrder_perm c k).symm.map _).trans (List.Perm.of_eq ?_)
  refine ext_getElem (by simp [portOrder]) fun i hi hi' => ?_
  simp [(nodup_portOrder c k).idxOf_getElem]

theorem idxOf_portOrder_inj {i j : ℕ} (hi : i < k)
    (heq : (portOrder c k).idxOf i = (portOrder c k).idxOf j) : i = j :=
  (idxOf_inj ((portOrder_perm c k).mem_iff.mpr (mem_range.mpr hi))).mp heq

/-! ### Ports that are in order -/

/-- The values of one number in a list that is numbered group by group. -/
theorem filter_flatMap_zipIdx {α β : Type} (f : α → List β) (l : List α) (start : ℕ) {j : ℕ}
    (hj : j < l.length) : ((((l.zipIdx start).flatMap fun p => (f p.1).map fun b => (p.2, b)).filter
      fun e => e.1 = start + j).map Prod.snd) = f l[j] := by
  induction l generalizing start j with
  | nil => exact absurd hj (Nat.not_lt_zero j)
  | cons a l ih =>
    rw [zipIdx_cons, flatMap_cons, filter_append, map_append]
    cases j with
    | zero =>
      have hrest : (((l.zipIdx (start + 1)).flatMap fun p => (f p.1).map fun b => (p.2, b)).filter
          fun e => e.1 = start + 0) = [] := by
        refine filter_eq_nil_iff.mpr fun e he heq => ?_
        obtain ⟨p, hp, he⟩ := mem_flatMap.mp he
        obtain ⟨b, -, rfl⟩ := mem_map.mp he
        have := le_snd_of_mem_zipIdx hp
        have := of_decide_eq_true heq
        omega
      rw [hrest, filter_eq_self.mpr (by simp)]
      simp
    | succ j =>
      have hfirst : (((f a).map fun b => (start, b)).filter fun e => e.1 = start + (j + 1)) = [] := by
        refine filter_eq_nil_iff.mpr fun e he heq => ?_
        obtain ⟨b, -, rfl⟩ := mem_map.mp he
        have := of_decide_eq_true heq
        omega
      rw [hfirst, map_nil, nil_append, getElem_cons_succ, ← ih]
      congr 3
      funext e
      rw [Nat.add_right_comm, Nat.add_assoc]

/-- The consumers of the port with number `j`. -/
theorem equalRange_orderedInputs {j : ℕ} (hj : j < (portOrder c k).length) :
    (orderedInputs c k).equalRange j = consumersOf c ((portOrder c k)[j]) := by
  have h := filter_flatMap_zipIdx (consumersOf c) (portOrder c k) 0 hj
  rw [Nat.zero_add] at h
  exact h

theorem consumersOf_ordered (h : Numbered c k) {j : ℕ} (hj : j < (portOrder c k).length) :
    consumersOf (c.setInputs (orderedInputs c k)) j = consumersOf c ((portOrder c k)[j]) := by
  rw [consumersOf, inputs_setInputs, idOf_setInputs, equalRange_orderedInputs hj]
  refine sortBy_of_sorted ?_ (sortBy_sorted _ _)
  intro t ht t' ht'
  exact h.distinct_tips _ t (mem_sortBy.mp ht) t' (mem_sortBy.mp ht')

theorem portKey_ordered (h : Numbered c k) {j : ℕ} (hj : j < (portOrder c k).length) :
    portKey (c.setInputs (orderedInputs c k)) j = portKey c ((portOrder c k)[j]) := by
  rw [portKey, portKey, h.consumersOf_ordered hj, idOf_setInputs]

theorem length_portOrder (c : NestedDag n) (k : ℕ) : (portOrder c k).length = k := by
  simp [portOrder]

/-- Ports that have been put in order stay in order. -/
theorem portOrder_ordered (h : Numbered c k) : portOrder (c.setInputs (orderedInputs c k)) k = range k := by
  have hkeys : ∀ j (hj : j < (portOrder c k).length), portKey (c.setInputs (orderedInputs c k)) j =
      portKey c ((portOrder c k)[j]) := fun j hj => h.portKey_ordered hj
  refine sortBy_of_sorted ?_ ?_
  · intro i hi j hj heq
    rw [mem_range, ← length_portOrder c k] at hi hj
    rw [hkeys i hi, hkeys j hj] at heq
    refine (nodup_portOrder c k).getElem_inj_iff.mp (h.distinct_ports _ ?_ _ ?_ heq)
    · exact (portOrder_perm c k).mem_iff.mp (getElem_mem hi)
    · exact (portOrder_perm c k).mem_iff.mp (getElem_mem hj)
  · refine pairwise_iff_getElem.mpr fun i j hi hj hij => ?_
    rw [length_range] at hi hj
    rw [getElem_range, getElem_range, hkeys i (by rwa [length_portOrder]), hkeys j (by rwa [length_portOrder])]
    exact pairwise_iff_getElem.mp (sortBy_sorted (portKey c) (range k)) i j _ _ hij

theorem orderedInputs_ordered (h : Numbered c k) :
    orderedInputs (c.setInputs (orderedInputs c k)) k = orderedInputs c k := by
  refine MultiMap.ext ?_
  show (portOrder (c.setInputs (orderedInputs c k)) k).zipIdx.flatMap _ = (portOrder c k).zipIdx.flatMap _
  rw [h.portOrder_ordered, flatMap_def, flatMap_def]
  refine congrArg flatten (ext_getElem (by simp [length_portOrder]) fun j hj hj' => ?_)
  have hlen : j < (portOrder c k).length := by simpa using hj'
  simp [h.consumersOf_ordered hlen]

theorem ordered (h : Numbered c k) : Numbered (c.setInputs (orderedInputs c k)) k := by
  have hperm := h.orderedInputs_perm
  refine ⟨?_, ?_, ?_, fun i => ?_⟩
  · rw [inputs_setInputs, operators_setInputs]
    intro e he
    obtain ⟨i, hi⟩ := exists_of_mem_orderedInputs he
    exact h.tip (i, e.2) hi
  · rw [inputs_setInputs]
    refine (hperm.map Prod.snd).nodup_iff.mpr ?_
    rw [map_map]
    exact h.nodup
  · rw [operators_setInputs, idOf_setInputs]
    exact h.ids
  · rw [inputs_setInputs, MultiMap.mem_keys]
    constructor
    · rintro ⟨tip, htip⟩
      obtain ⟨e, he, heq⟩ := mem_map.mp (hperm.mem_iff.mp htip)
      have hport : e.1 ∈ portOrder c k := (portOrder_perm c k).mem_iff.mpr
        (mem_range.mpr ((h.keys e.1).mp (MultiMap.mem_keys.mpr ⟨e.2, he⟩)))
      have hlt := idxOf_lt_length_of_mem hport
      rwa [(Prod.mk.inj heq).1, length_portOrder] at hlt
    · intro hi
      have hlen : i < (portOrder c k).length := by rwa [length_portOrder]
      have hport := mem_range.mp ((portOrder_perm c k).mem_iff.mp (getElem_mem hlen))
      obtain ⟨tip, htip⟩ := MultiMap.mem_keys.mp ((h.keys _).mpr hport)
      refine ⟨tip, hperm.mem_iff.mpr (mem_map.mpr ⟨_, htip, ?_⟩)⟩
      rw [(nodup_portOrder c k).idxOf_getElem]

/-! ### Ports of equal inner DAGs -/

/-- Two inner DAGs with the same ids and with inputs that are renumbered by `σ`. -/
structure Matching (c c' : NestedDag n) (k : ℕ) (σ ρ : ℕ → ℕ) : Prop where
  ids : ∀ u ∈ c.operators, c'.idOf (ρ u) = c.idOf u
  ports : ((range k).map σ).Perm (range k)
  inputs : c'.inputs.entries.Perm (c.inputs.entries.map fun e => (σ e.1, e.2.rename ρ))

namespace Matching

variable {c' : NestedDag n} {σ ρ : ℕ → ℕ}

theorem inj (hmatch : Matching c c' k σ ρ) {i j : ℕ} (hi : i < k) (hj : j < k) (heq : σ i = σ j) : i = j :=
  inj_on_of_nodup_map (hmatch.ports.nodup_iff.mpr nodup_range) (mem_range.mpr hi)
    (mem_range.mpr hj) heq

theorem tipKey_rename (hmatch : Matching c c' k σ ρ) {tip : FlowTip} (htip : tip.op ∈ c.operators) :
    tipKey c'.idOf (tip.rename ρ) = tipKey c.idOf tip :=
  congrArg (fun id => toLex (id, tip.port)) (hmatch.ids tip.op htip)

section

variable (h : Numbered c k) (hmatch : Matching c c' k σ ρ)

include h hmatch

theorem consumersOf (hi : i < k) : consumersOf c' (σ i) = (Optimize.consumersOf c i).map fun tip => tip.rename ρ := by
  refine sortBy_map (h.distinct_tips i) ?_ fun tip htip =>
    hmatch.tipKey_rename (h.tip _ (MultiMap.mem_equalRange.mp htip))
  refine ((hmatch.inputs.filter _).map Prod.snd).trans (List.Perm.of_eq ?_)
  rw [filter_map, MultiMap.equalRange, map_map, map_map]
  have hfilt : (c.inputs.entries.filter ((fun e : ℕ × FlowTip => decide (e.1 = σ i)) ∘
      fun e => (σ e.1, e.2.rename ρ))) = c.inputs.entries.filter fun e => e.1 = i := by
    refine filter_congr fun e he => decide_eq_decide.mpr ⟨fun heq => ?_, fun heq => congrArg σ heq⟩
    exact hmatch.inj ((h.keys e.1).mp (MultiMap.mem_keys.mpr ⟨e.2, he⟩)) hi heq
  rw [hfilt]
  rfl

theorem portKey (hi : i < k) : portKey c' (σ i) = Optimize.portKey c i := by
  obtain ⟨tip, rest, hconsumers, hkey, hmem⟩ := h.exists_first hi
  rw [Optimize.portKey, hmatch.consumersOf h hi, hconsumers, map_cons, headD_cons, hkey]
  exact hmatch.tipKey_rename (h.tip _ hmem)

theorem portOrder : portOrder c' k = (Optimize.portOrder c k).map σ :=
  sortBy_map h.distinct_ports hmatch.ports.symm fun _ hi => hmatch.portKey h (mem_range.mp hi)

theorem newPort (hi : i < k) : (Optimize.portOrder c' k).idxOf (σ i) = (Optimize.portOrder c k).idxOf i := by
  rw [hmatch.portOrder h]
  refine idxOf_map_of_injOn fun j hj heq => hmatch.inj ?_ hi heq
  exact mem_range.mp ((portOrder_perm c k).mem_iff.mp hj)

theorem orderedInputs :
    (orderedInputs c' k).entries = (Optimize.orderedInputs c k).entries.map fun e => (e.1, e.2.rename ρ) := by
  show (Optimize.portOrder c' k).zipIdx.flatMap _ = ((Optimize.portOrder c k).zipIdx.flatMap _).map _
  rw [hmatch.portOrder h, zipIdx_map, flatMap_map, map_flatMap]
  refine flatMap_congr fun p hp => ?_
  have hp : p.1 < k := mem_range.mp ((portOrder_perm c k).mem_iff.mp (fst_mem_of_mem_zipIdx hp))
  show (Optimize.consumersOf c' (σ p.1)).map _ = _
  rw [hmatch.consumersOf h hp, map_map, map_map]
  rfl

end

end Matching

end Numbered

end Jitq.Optimize

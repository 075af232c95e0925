import Jitq.Dag.Edit
import Jitq.Lib.Search

namespace Jitq

open Graphs Search List

/-! # The graph predicates of a DAG — HasCycle and IsTree

`HasCycle` runs a depth-first search for each operator without in-flows, and `IsTree` a breadth-first search from the
only operator without out-flows.

* `hasCycleSearch_eq` — as a depth-first search goes on with the vertices that it has not reached, any operator without
  in-flows finds every cycle, so the predicate is the one that `addFlow` tests;
* a graph in which every operator has an in-flow has a cycle, and no search is started at all;
* `isTree` — the search from a sink meets nothing, and every vertex has a color before it starts.  What is left is the
  count of the out-flows, which is enough for a graph without cycles.

`graphPredicates_exact_iff` puts the three together. -/

namespace PortedDag

variable {Op : Type}

/-! ### The two functions -/

/-- `HasCycle()`. -/
def hasCycleSearch (dag : PortedDag Op) : Bool :=
  dag.operators.any fun v => dag.graph.inDegree v = 0 && (depthFirstSearch dag.edges dag.operators v).backEdge

/-- The loop of `IsTree()`: `none` if it returns `false`, else `root`. -/
def findRoot (dag : PortedDag Op) : List ℕ → Option ℕ → Option (Option ℕ)
  | [], root => some root
  | v :: vs, root =>
    if dag.graph.outDegree v > 1 then none
    else if dag.graph.outDegree v = 0 then
      match root with
      | some _ => none
      | none => findRoot dag vs (some v)
    else findRoot dag vs root

/-- `IsTree()`, which asks for the vertex of a null pointer if there is no root. -/
def isTree (dag : PortedDag Op) : Option Bool :=
  match dag.findRoot dag.operators none with
  | none => some false
  | some none => none
  | some (some root) =>
    let search := breadthFirstSearch dag.edges dag.operators root
    if search.nonTreeEdge then some false
    else some (search.colors.length = dag.operators.length)

/-! ### Cycles -/

variable {dag : PortedDag Op}

theorem Closed.edges (h : dag.Closed) : ∀ e ∈ dag.edges, e.1 ∈ dag.operators ∧ e.2 ∈ dag.operators := by
  intro e he
  obtain ⟨f, hf, rfl⟩ := mem_map.mp he
  exact ⟨h.source f hf, h.target f hf⟩

theorem inDegree_eq_zero {v : ℕ} : dag.graph.inDegree v = 0 ↔ ∀ e ∈ dag.edges, e.2 ≠ v := by
  rw [Dag.inDegree, length_eq_zero_iff, Dag.inFlows, filter_eq_nil_iff]
  constructor
  · intro h e he heq
    obtain ⟨f, hf, rfl⟩ := mem_map.mp he
    exact h f hf (by simpa using heq)
  · intro h f hf heq
    exact h (f.source.op, f.target.op) (mem_map_of_mem hf) (by simpa using heq)

/-- Some operator is a source: it has no in-flow. -/
def HasSource (dag : PortedDag Op) : Prop := ∃ v ∈ dag.operators, dag.graph.inDegree v = 0

/-- `HasCycle()` finds the cycles of a graph that has a source. -/
theorem hasCycleSearch_iff (h : dag.Closed) : dag.hasCycleSearch = true ↔ dag.HasSource ∧ ¬ dag.Acyclic := by
  rw [hasCycleSearch, any_eq_true]
  constructor
  · rintro ⟨v, hv, hsearch⟩
    rw [Bool.and_eq_true, decide_eq_true_eq] at hsearch
    exact ⟨⟨v, hv, hsearch.1⟩, (backEdge_iff h.edges hv).mp hsearch.2⟩
  · rintro ⟨⟨v, hv, hdeg⟩, hcycle⟩
    refine ⟨v, hv, ?_⟩
    rw [Bool.and_eq_true, decide_eq_true_eq]
    exact ⟨hdeg, (backEdge_iff h.edges hv).mpr hcycle⟩

/-- A graph without cycles has a source, unless it has no operators at all: an operator of the least rank. -/
theorem hasSource_of_acyclic (h : dag.Acyclic) (hne : dag.operators ≠ []) (hclosed : dag.Closed) : dag.HasSource := by
  obtain ⟨rank, hrank⟩ := acyclic_iff_rank.mp h
  obtain ⟨v, hv, hmin⟩ := dag.operators.toFinset.exists_min_image rank
    (by obtain ⟨x, hx⟩ := exists_mem_of_ne_nil _ hne; exact ⟨x, mem_toFinset.mpr hx⟩)
  refine ⟨v, mem_toFinset.mp hv, inDegree_eq_zero.mpr fun e he heq => ?_⟩
  have hlt := hrank e he
  have hle := hmin e.1 (mem_toFinset.mpr (hclosed.edges e he).1)
  rw [heq] at hlt
  omega

theorem acyclic_of_operators_eq_nil (hclosed : dag.Closed) (h : dag.operators = []) : dag.Acyclic := by
  have hnil : dag.edges = [] := eq_nil_iff_forall_not_mem.mpr fun e he => by
    have hmem := (hclosed.edges e he).1
    rw [h] at hmem
    exact not_mem_nil hmem
  intro v hreach
  obtain ⟨w, hw⟩ := exists_edge_of_reaches hreach
  rw [hnil] at hw
  exact not_mem_nil hw

/-- `HasCycle()` tells whether there is a cycle exactly if there is no operator, or a source. -/
theorem hasCycleSearch_exact_iff (h : dag.Closed) :
    (dag.hasCycleSearch = true ↔ ∃ v, Reaches dag.edges v v) ↔ dag.operators = [] ∨ dag.HasSource := by
  have hcycle : (∃ v, Reaches dag.edges v v) ↔ ¬ dag.Acyclic := by
    rw [Acyclic, Graphs.Acyclic, not_forall_not]
  rw [hcycle, hasCycleSearch_iff h]
  constructor
  · intro hexact
    by_contra hnot
    rw [not_or] at hnot
    -- without a source there is a cycle, which the search does not see
    have hcyclic : ¬ dag.Acyclic := fun hacyc => hnot.2 (hasSource_of_acyclic hacyc hnot.1 h)
    exact hnot.2 (hexact.mpr hcyclic).1
  · rintro (hnil | hsrc)
    · exact ⟨And.right, fun hcyclic => absurd (acyclic_of_operators_eq_nil h hnil) hcyclic⟩
    · exact ⟨And.right, fun hcyclic => ⟨hsrc, hcyclic⟩⟩

/-- The search and the test that `addFlow` makes agree. -/
theorem hasCycleSearch_eq (h : dag.Closed) : dag.hasCycleSearch = dag.hasCycle := by
  rw [Bool.eq_iff_iff, hasCycleSearch_iff h, hasCycle, Bool.and_eq_true, hasCycle_iff fun e he => (h.edges e he).1,
    any_eq_true]
  simp only [decide_eq_true_eq]
  rfl

/-! ### Insertions -/

/-- The DAG with one more flow. -/
def withFlow (dag : PortedDag Op) (source target : FlowTip) : PortedDag Op :=
  { dag with flows := dag.flows ++ [⟨source, target⟩] }

variable {source target : FlowTip}

theorem Closed.withFlow (h : dag.Closed) (hs : source.op ∈ dag.operators) (ht : target.op ∈ dag.operators) :
    (dag.withFlow source target).Closed where
  nodup := h.nodup
  source f hf := by
    rcases mem_append.mp hf with hf | hf
    · exact h.source f hf
    · obtain rfl := mem_singleton.mp hf
      exact hs
  target f hf := by
    rcases mem_append.mp hf with hf | hf
    · exact h.target f hf
    · obtain rfl := mem_singleton.mp hf
      exact ht
  input := h.input
  output := h.output

/-- An insertion closes a cycle if its source can be reached from its target. -/
def Closes (dag : PortedDag Op) (source target : FlowTip) : Prop :=
  Relation.ReflTransGen (Edge dag.edges) target.op source.op

theorem edge_withFlow {u v : ℕ} : Edge (dag.withFlow source target).edges u v ↔
    Edge dag.edges u v ∨ (u = source.op ∧ v = target.op) := by
  unfold Edge edges withFlow
  rw [map_append, mem_append, map_singleton, mem_singleton, Prod.mk.injEq]

/-- A path with the new flow in it, or an old one. -/
theorem reaches_withFlow {u v : ℕ} (h : Reaches (dag.withFlow source target).edges u v) :
    Reaches dag.edges u v ∨ (Relation.ReflTransGen (Edge dag.edges) u source.op ∧
      Relation.ReflTransGen (Edge (dag.withFlow source target).edges) target.op v) := by
  induction h with
  | single hedge =>
    rcases edge_withFlow.mp hedge with hedge | ⟨rfl, rfl⟩
    · exact .inl (.single hedge)
    · exact .inr ⟨.refl, .refl⟩
  | tail _ hedge ih =>
    rcases ih with hold | ⟨hfirst, hlast⟩
    · rcases edge_withFlow.mp hedge with hedge | ⟨rfl, rfl⟩
      · exact .inl (hold.tail hedge)
      · exact .inr ⟨hold.to_reflTransGen, .refl⟩
    · exact .inr ⟨hfirst, hlast.tail hedge⟩

theorem acyclic_withFlow_iff (h : dag.Acyclic) : (dag.withFlow source target).Acyclic ↔ ¬ dag.Closes source target := by
  constructor
  · intro hacyc hcloses
    refine hacyc target.op (Relation.TransGen.tail' (b := source.op) ?_ (edge_withFlow.mpr (.inr ⟨rfl, rfl⟩)))
    exact Relation.ReflTransGen.mono (fun u v huv => edge_withFlow.mpr (.inl huv)) _ _ hcloses
  · intro hnot v hreach
    -- a cycle uses the new flow; up to its first use behind the target the path is an old one
    have hnew : ∀ u, Relation.ReflTransGen (Edge (dag.withFlow source target).edges) target.op u →
        Relation.ReflTransGen (Edge dag.edges) target.op u := by
      intro u hu
      induction hu with
      | refl => exact .refl
      | tail _ hedge ih =>
        rcases edge_withFlow.mp hedge with hedge | ⟨rfl, rfl⟩
        · exact ih.tail hedge
        · exact .refl
    rcases reaches_withFlow hreach with hold | ⟨hfirst, hlast⟩
    · exact h v hold
    · exact hnot ((hnew v hlast).trans hfirst)

/-- The assertion of `AddFlow` fails exactly for the insertions that close a cycle, if a source is left. -/
theorem addFlow_exact_iff (hclosed : dag.Closed) (h : dag.Acyclic) (hs : source.op ∈ dag.operators)
    (ht : target.op ∈ dag.operators) :
    (dag.addFlow source target = none ↔ dag.Closes source target) ↔ (dag.withFlow source target).HasSource := by
  have hfails : dag.addFlow source target = none ↔ (dag.withFlow source target).hasCycleSearch = true := by
    rw [hasCycleSearch_eq (hclosed.withFlow hs ht)]
    unfold addFlow
    simp only [hs, ht, true_and]
    show (if (dag.withFlow source target).hasCycle = false then _ else _) = none ↔ _
    cases (dag.withFlow source target).hasCycle <;> simp
  have hexact := hasCycleSearch_exact_iff (hclosed.withFlow hs ht)
  have hne : (dag.withFlow source target).operators ≠ [] := ne_nil_of_mem hs
  rw [or_iff_right hne] at hexact
  rw [hfails, ← hexact, ← not_iff_not (b := dag.Closes source target), ← acyclic_withFlow_iff h, ← not_iff_not
    (b := ∃ v, Reaches (dag.withFlow source target).edges v v), not_exists]
  rfl

/-! ### Trees -/

/-- Any two operators are connected by flows, taken in either direction. -/
def Connected (dag : PortedDag Op) : Prop :=
  ∀ u ∈ dag.operators, ∀ v ∈ dag.operators, Relation.EqvGen (Edge dag.edges) u v

/-- Exactly one operator has no out-flow, and every other operator has exactly one. -/
def SingleOutFlows (dag : PortedDag Op) : Prop :=
  ∃ root ∈ dag.operators, dag.graph.outDegree root = 0 ∧ ∀ v ∈ dag.operators, v ≠ root → dag.graph.outDegree v = 1

/-- The operators without out-flows. -/
def sinks (dag : PortedDag Op) (vs : List ℕ) : List ℕ := vs.filter fun v => dag.graph.outDegree v = 0

theorem findRoot_eq (vs : List ℕ) (root : Option ℕ) : dag.findRoot vs root =
    if (∀ v ∈ vs, dag.graph.outDegree v ≤ 1) ∧ (root.toList ++ dag.sinks vs).length ≤ 1 then
      some (root.toList ++ dag.sinks vs).head?
    else none := by
  induction vs generalizing root with
  | nil => cases root <;> simp [findRoot, sinks]
  | cons v vs ih =>
    unfold findRoot
    split
    · rename_i hgt
      rw [if_neg fun h => absurd (h.1 v mem_cons_self) (by omega)]
    · rename_i hle
      split
      · rename_i hzero
        have hsinks : dag.sinks (v :: vs) = v :: dag.sinks vs := by simp [sinks, hzero]
        cases root with
        | some r =>
          -- a second root
          rw [if_neg fun h => absurd h.2 (by simp [hsinks])]
        | none => simp [ih, hsinks, hzero]
      · rename_i hone
        have hsinks : dag.sinks (v :: vs) = dag.sinks vs := by simp [sinks, hone]
        have hv : dag.graph.outDegree v ≤ 1 := by omega
        rw [ih, hsinks]
        simp [hv]

theorem successors_eq_nil {v : ℕ} (h : dag.graph.outDegree v = 0) : successors dag.edges v = [] := by
  rw [Dag.outDegree, length_eq_zero_iff, Dag.outFlows, filter_eq_nil_iff] at h
  rw [successors, map_eq_nil_iff, filter_eq_nil_iff]
  intro e he heq
  obtain ⟨f, hf, rfl⟩ := mem_map.mp he
  exact h f hf (by simpa using heq)

theorem exists_flow_of_outDegree {v : ℕ} (h : dag.graph.outDegree v ≠ 0) : ∃ w, (v, w) ∈ dag.edges := by
  rw [Dag.outDegree, ne_eq, length_eq_zero_iff] at h
  obtain ⟨f, hf⟩ := exists_mem_of_ne_nil _ h
  obtain ⟨hflow, hsrc⟩ := Dag.mem_outFlows.mp hf
  exact ⟨f.target.op, mem_map.mpr ⟨f, hflow, by rw [hsrc]⟩⟩

/-- Along the flows every operator of a graph without cycles comes to a sink.  The induction is on the number of
    operators that can be reached. -/
theorem exists_sink (hclosed : dag.Closed) (h : dag.Acyclic) {v : ℕ} (hv : v ∈ dag.operators) :
    ∃ w ∈ dag.operators, dag.graph.outDegree w = 0 ∧ Relation.EqvGen (Edge dag.edges) v w := by
  obtain ⟨rank, hrank⟩ := acyclic_iff_rank.mp (Graphs.Acyclic.swap h)
  obtain ⟨r, hr⟩ : ∃ r, rank v = r := ⟨_, rfl⟩
  induction r using Nat.strong_induction_on generalizing v with
  | _ r ih =>
    by_cases hzero : dag.graph.outDegree v = 0
    · exact ⟨v, hv, hzero, .refl v⟩
    · obtain ⟨w, hw⟩ := exists_flow_of_outDegree hzero
      have hlt : rank w < rank v := hrank (w, v) (mem_map.mpr ⟨(v, w), hw, rfl⟩)
      obtain ⟨x, hx, hsink, hpath⟩ := ih (rank w) (by omega) (hclosed.edges _ hw).2 rfl
      exact ⟨x, hx, hsink, .trans _ _ _ (.rel _ _ hw) hpath⟩

theorem SingleOutFlows.connected (hclosed : dag.Closed) (h : dag.Acyclic) (hsingle : dag.SingleOutFlows) :
    dag.Connected := by
  obtain ⟨root, -, hroot, hothers⟩ := hsingle
  have htoRoot : ∀ v ∈ dag.operators, Relation.EqvGen (Edge dag.edges) v root := by
    intro v hv
    obtain ⟨w, hw, hsink, hpath⟩ := exists_sink hclosed h hv
    obtain rfl : w = root := by
      by_contra hne
      have := hothers w hw hne
      omega
    exact hpath
  exact fun u hu v hv => .trans _ _ _ (htoRoot u hu) (.symm _ _ (htoRoot v hv))

/-- The count of the out-flows in the loop. -/
theorem singleOutFlows_iff (hnd : dag.operators.Nodup) :
    dag.SingleOutFlows ↔ (∀ v ∈ dag.operators, dag.graph.outDegree v ≤ 1) ∧ (dag.sinks dag.operators).length = 1 := by
  constructor
  · rintro ⟨root, hroot, hzero, hothers⟩
    refine ⟨fun v hv => ?_, ?_⟩
    · by_cases hv' : v = root
      · rw [hv', hzero]
        omega
      · rw [hothers v hv hv']
    · have hsub : ∀ v ∈ dag.sinks dag.operators, v ∈ [root] := by
        intro v hv
        obtain ⟨hmem, hsink⟩ := mem_filter.mp hv
        by_contra hne
        have := hothers v hmem (by simpa using hne)
        have : dag.graph.outDegree v = 0 := by simpa using hsink
        omega
      have hle : (dag.sinks dag.operators).length ≤ [root].length :=
        (subperm_of_subset (hnd.filter _) hsub).length_le
      have hpos : 0 < (dag.sinks dag.operators).length :=
        length_pos_of_mem (mem_filter.mpr ⟨hroot, by simpa using hzero⟩)
      rw [length_singleton] at hle
      omega
  · rintro ⟨hle, hlen⟩
    obtain ⟨root, hroot⟩ := length_eq_one_iff.mp hlen
    have hmem : root ∈ dag.sinks dag.operators := hroot ▸ mem_singleton_self root
    obtain ⟨hop, hzero⟩ := mem_filter.mp hmem
    refine ⟨root, hop, by simpa using hzero, fun v hv hne => ?_⟩
    have hnot : dag.graph.outDegree v ≠ 0 := by
      intro hzero'
      have : v ∈ dag.sinks dag.operators := mem_filter.mpr ⟨hv, by simpa using hzero'⟩
      rw [hroot] at this
      exact hne (mem_singleton.mp this)
    have := hle v hv
    omega

/-- `IsTree()` returns for a graph without cycles, and tells whether it is a tree. -/
theorem isTree_eq (hclosed : dag.Closed) (h : dag.Acyclic) (hne : dag.operators ≠ []) :
    ∃ b, dag.isTree = some b ∧ (b = true ↔ dag.Connected ∧ dag.SingleOutFlows) := by
  have htree : dag.Connected ∧ dag.SingleOutFlows ↔ dag.SingleOutFlows :=
    ⟨And.right, fun hsingle => ⟨hsingle.connected hclosed h, hsingle⟩⟩
  rw [htree, singleOutFlows_iff hclosed.nodup]
  -- there is a sink
  obtain ⟨x, hx⟩ := exists_mem_of_ne_nil _ hne
  obtain ⟨w, hw, hzero, -⟩ := exists_sink hclosed h hx
  have hsink : w ∈ dag.sinks dag.operators := mem_filter.mpr ⟨hw, by simpa using hzero⟩
  have hpos := length_pos_of_mem hsink
  have hfind : dag.findRoot dag.operators none = _ := findRoot_eq dag.operators none
  rw [Option.toList_none, nil_append] at hfind
  rw [isTree, hfind]
  by_cases hcond : (∀ v ∈ dag.operators, dag.graph.outDegree v ≤ 1) ∧ (dag.sinks dag.operators).length ≤ 1
  · rw [if_pos hcond]
    obtain ⟨root, hroot⟩ := length_eq_one_iff.mp (show (dag.sinks dag.operators).length = 1 by omega)
    have hmem : root ∈ dag.sinks dag.operators := hroot ▸ mem_singleton_self root
    obtain ⟨hop, hdeg⟩ := mem_filter.mp hmem
    obtain ⟨hevent, hcolors⟩ := breadthFirstSearch_of_sink hop (successors_eq_nil (by simpa using hdeg))
    refine ⟨true, ?_, fun _ => ⟨hcond.1, by omega⟩, fun _ => rfl⟩
    rw [hroot]
    simp only [head?_cons, hevent, Bool.false_eq_true, if_false, hcolors, decide_true]
  · rw [if_neg hcond]
    exact ⟨false, rfl, nofun, fun hboth => absurd ⟨hboth.1, hboth.2.le⟩ hcond⟩

/-- **When the graph predicates are exact.**  `HasCycle` tells whether there is a cycle exactly if there is no operator
    or one without in-flows; the assertion of `AddFlow` fails for exactly the insertions that close a cycle exactly if
    an operator without in-flows is left.  `IsTree` is exact for every graph without cycles. -/
theorem graphPredicates_exact_iff (hclosed : dag.Closed) :
    ((dag.hasCycleSearch = true ↔ ∃ v, Reaches dag.edges v v) ↔ dag.operators = [] ∨ dag.HasSource) ∧
    (∀ source target : FlowTip, source.op ∈ dag.operators → target.op ∈ dag.operators → dag.Acyclic →
      ((dag.addFlow source target = none ↔ dag.Closes source target) ↔ (dag.withFlow source target).HasSource)) ∧
    (dag.operators ≠ [] → dag.Acyclic →
      ∃ b, dag.isTree = some b ∧ (b = true ↔ dag.Connected ∧ dag.SingleOutFlows)) :=
  ⟨hasCycleSearch_exact_iff hclosed, fun _ _ hs ht h => addFlow_exact_iff hclosed h hs ht,
    fun hne h => isTree_eq hclosed h hne⟩

/-- Two operators with a flow from the first to the second. -/
def twoOperators : PortedDag Unit where
  operators := [0, 1]
  op _ := ()
  flows := [⟨⟨0, 0⟩, ⟨1, 0⟩⟩]
  inputs := ∅
  outputs := ∅

theorem graphPredicates_exact_twoOperators :
    twoOperators.HasSource ∧ (twoOperators.hasCycleSearch = true ↔ ∃ v, Reaches twoOperators.edges v v) := by
  have hsrc : twoOperators.HasSource := ⟨0, by decide, by decide⟩
  have hclosed : twoOperators.Closed := ⟨by decide, by decide, by decide, by decide, by decide⟩
  exact ⟨hsrc, (graphPredicates_exact_iff hclosed).1.mpr (.inr hsrc)⟩

/-- A flow back from the second operator to the first one is accepted. -/
theorem addFlow_accepts_cycle :
    (∃ dag ∈ twoOperators.addFlow ⟨1, 0⟩ ⟨0, 0⟩, dag.hasCycleSearch = false ∧ (0, 1) ∈ dag.edges ∧ (1, 0) ∈ dag.edges) ∧
      twoOperators.Closes ⟨1, 0⟩ ⟨0, 0⟩ := by
  refine ⟨by decide, .single ?_⟩
  show (0, 1) ∈ twoOperators.edges
  decide

end PortedDag

end Jitq

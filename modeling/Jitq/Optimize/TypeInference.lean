import Jitq.Dag.Edit
import Jitq.Lib.Sweep
import Jitq.Optimize.OutputType

namespace Jitq.Optimize

open SortedMap Checked Graphs Sweep List Function

/-! # The pass `TypeInference`

Visits the operators sources first.  On entry of an operator with an inner DAG the inputs of the inner DAG
get the types of the predecessors; the inner DAG is visited; and on exit the type of the operator is
computed.  In a second mode the pass compares the types with the computed ones.

* `typeInference`, `checkTypes` — the two modes;
* `newVertex` — one visit as a function of the operator and its predecessors, so that a run is a sweep;
* `typeInference_consistent` — the types that the pass reaches. -/

/-! ### The pass -/

/-- `op->tuple = make_polymorphic_value<Tuple>(type)`. -/
def setTuple {Inner : Type} (vertex : Vertex Inner) (type : TupleType) : Vertex Inner :=
  ⟨{ vertex.operator with tuple := some type }, vertex.innerDag⟩

/-- The same for an operator of a DAG. -/
def setTypeOf : {n : ℕ} → NestedDag n → ℕ → TupleType → NestedDag n
  | 0, dag => nomatch dag
  | _ + 1, dag => fun v type => setOp dag v (setTuple (PortedDag.op dag v) type)

section

variable {n : ℕ}

/-- The loop over the inputs of the inner DAG. -/
def setInputTypes (inputType : ℕ → Typed TupleType) (inner : NestedDag n) : Typed (NestedDag n) :=
  inner.inputs.entries.foldlM (fun inner input => do
    let type ← inputType input.1
    .ok (setTypeOf inner input.2.op type)) inner

variable (dag : OpDag (NestedDag n))

/-- `SetInnerGraphInputTypes(op, dag)`. -/
def setInnerGraphInputTypes (v : ℕ) :
    Typed (OpDag (NestedDag n)) :=
  match (dag.op v).innerDag with
  | none => .ok dag
  | some inner => do
    let inner ← setInputTypes (predecessorTypeOn dag v) inner
    .ok (setOp dag v ⟨(dag.op v).operator, some inner⟩)

/-- `RecomputeOutputType(op, dag)`. -/
def recomputeOutputType (v : ℕ) :
    Typed (OpDag (NestedDag n)) := do
  let type ← computeOutputType dag v
  .ok (setOp dag v (setTuple (dag.op v) type))

/-- `CheckOutputType(op, dag)`. -/
def checkOutputType (v : ℕ) : Typed Unit := do
  let computed ← computeOutputType dag v
  let output ← ownType dag v
  let operator := (dag.op v).operator
  require (output = computed) (.wrongOutputType operator.cls.name operator.id output computed)

variable (infer : NestedDag n → Typed (NestedDag n))

/-- The recursion into the inner DAG, between the two visitors. -/
def inferInner (dag : OpDag (NestedDag n)) (v : ℕ) :
    Typed (OpDag (NestedDag n)) :=
  match (dag.op v).innerDag with
  | none => .ok dag
  | some inner => do
    let inner ← infer inner
    .ok (setOp dag v ⟨(dag.op v).operator, some inner⟩)

def visitOperator (dag : OpDag (NestedDag n))
    (v : ℕ) : Typed (OpDag (NestedDag n)) := do
  let dag ← setInnerGraphInputTypes dag v
  let dag ← inferInner infer dag v
  recomputeOutputType dag v

def checkInner (check : NestedDag n → Typed Unit) : Option (NestedDag n) → Typed Unit
  | none => .ok ()
  | some inner => check inner

end

/-- `TypeInference::Run`.  `topSort` is `boost::topological_sort`, which lists sinks first. -/
def typeInference (topSort : TopologicalSort ℕ) : (n : ℕ) → NestedDag n → Typed (NestedDag n)
  | 0, dag => nomatch dag
  | n + 1, (dag : OpDag (NestedDag n)) => (topSort dag.operators dag.edges).reverse.foldlM
      (visitOperator (typeInference topSort n)) dag

/-- `TypeInference::Run` with `only_check_`. -/
def checkTypes (topSort : TopologicalSort ℕ) : (n : ℕ) → NestedDag n → Typed Unit
  | 0, dag => nomatch dag
  | n + 1, (dag : OpDag (NestedDag n)) =>
    (topSort dag.operators dag.edges).reverse.forM fun v => do
      checkOutputType dag v
      checkInner (checkTypes topSort n) (dag.op v).innerDag

/-! ### One visit

A visit changes the operator alone, and reads the predecessors besides it. -/

section

variable {n : ℕ} {infer infer' : NestedDag n → Typed (NestedDag n)}
  {dag dag' : OpDag (NestedDag n)} {v : ℕ}

/-- The inner DAG after the visit. -/
def newInner (infer : NestedDag n → Typed (NestedDag n)) (inputType : ℕ → Typed TupleType) :
    Option (NestedDag n) → Typed (Option (NestedDag n))
  | none => .ok none
  | some inner => do
    let inner ← setInputTypes inputType inner
    let inner ← infer inner
    .ok (some inner)

/-- The operator after the visit. -/
def newVertex (infer : NestedDag n → Typed (NestedDag n)) (dag : OpDag (NestedDag n)) (v : ℕ) :
    Typed (Vertex (NestedDag n)) := do
  let inner ← newInner infer (predecessorTypeOn dag v) (dag.op v).innerDag
  let type ← computeOutputType (setOp dag v ⟨(dag.op v).operator, inner⟩) v
  .ok ⟨{ (dag.op v).operator with tuple := some type }, inner⟩

theorem visitOperator_eq : visitOperator infer dag v = newVertex infer dag v >>= fun x => .ok (setOp dag v x) := by
  unfold visitOperator newVertex setInnerGraphInputTypes
  cases hinner : (dag.op v).innerDag with
  | none =>
    have hself : setOp dag v ⟨(dag.op v).operator, none⟩ = dag := by
      rw [← hinner]
      exact setOp_self
    simp only [ok_bind, inferInner, hinner, recomputeOutputType, newInner, hself, bind_assoc, setTuple]
  | some inner =>
    simp only [newInner, bind_assoc, ok_bind, inferInner, op_setOp_self, recomputeOutputType, setOp_setOp, setTuple]

variable {x : Vertex (NestedDag n)} {type : TupleType} {inputType : ℕ → Typed TupleType}
    {inner inner₁ : NestedDag n}
  {types : List (ℕ × TupleType)}

theorem newVertex_eq_ok : newVertex infer dag v = .ok x ↔
    ∃ inner type, newInner infer (predecessorTypeOn dag v) (dag.op v).innerDag = .ok inner ∧
      computeOutputType (setOp dag v ⟨(dag.op v).operator, inner⟩) v = .ok type ∧
      x = ⟨{ (dag.op v).operator with tuple := some type }, inner⟩ := by
  simp only [newVertex, bind_eq_ok, Except.ok.injEq]
  simp only [eq_comm, exists_and_left]

variable {innerDag innerDag' : Option (NestedDag n)}

theorem newInner_eq_ok : newInner infer inputType innerDag = .ok innerDag' ↔ innerDag = none ∧ innerDag' = none ∨
      ∃ inner inner₁ inner2, innerDag = some inner ∧ innerDag' = some inner2 ∧
        setInputTypes inputType inner = .ok inner₁ ∧ infer inner₁ = .ok inner2 := by
  cases innerDag with
  | none => simp [newInner, eq_comm]
  | some inner =>
    simp only [newInner, bind_eq_ok, Except.ok.injEq]
    aesop

/-- The operators that are read belong to predecessors. -/
theorem mem_edges_of_predecessorOn {i u : ℕ} (h : dag.graph.predecessorOn v i = some u) : (u, v) ∈ dag.edges := by
  obtain ⟨f, hf, htgt, hsrc⟩ := Dag.exists_flow_of_predecessorOn h
  exact mem_map.mpr ⟨f, hf, by rw [hsrc, htgt]⟩

theorem mem_edges_of_predecessor {u : ℕ} (h : dag.graph.predecessor v = some u) : (u, v) ∈ dag.edges := by
  obtain ⟨f, hf, htgt, hsrc⟩ := Dag.exists_flow_of_predecessor h
  exact mem_map.mpr ⟨f, hf, by rw [hsrc, htgt]⟩

theorem asserted_eq_ok {α : Type} {o : Option α} {a : α} : asserted o = .ok a ↔ o = some a := by
  cases o <;> simp [asserted]

theorem predecessorTypeOn_eq_ok {i : ℕ} : predecessorTypeOn dag v i = .ok type ↔
    ∃ u, dag.graph.predecessorOn v i = some u ∧ (dag.op u).operator.tuple = some type := by
  unfold predecessorTypeOn ownType
  simp only [bind_eq_ok, asserted_eq_ok]

/-- The DAGs have the same flows, and the predecessors of the operator are the same in both. -/
structure SamePredecessors (dag dag' : OpDag (NestedDag n)) (v : ℕ) : Prop where
  flows : dag'.flows = dag.flows
  op : ∀ e ∈ dag.edges, e.2 = v → dag'.op e.1 = dag.op e.1

namespace SamePredecessors

section

variable (h : SamePredecessors dag dag' v)

include h

theorem predecessorTypeOn : predecessorTypeOn dag' v = predecessorTypeOn dag v := by
  funext i
  have hgraph : dag'.graph.predecessorOn v i = dag.graph.predecessorOn v i := by
    unfold Dag.predecessorOn Dag.inFlowOn Dag.inFlowsOn Dag.inFlows PortedDag.graph
    rw [h.flows]
  unfold Jitq.Optimize.predecessorTypeOn
  rw [hgraph]
  cases hpred : dag.graph.predecessorOn v i with
  | none => rfl
  | some u =>
    simp only [asserted, ok_bind, ownType]
    rw [h.op (u, v) (mem_edges_of_predecessorOn hpred) rfl]

theorem predecessorType : predecessorType dag' v = predecessorType dag v := by
  have hgraph : dag'.graph.predecessor v = dag.graph.predecessor v := by
    unfold Dag.predecessor Dag.inFlow Dag.inFlows PortedDag.graph
    rw [h.flows]
  unfold Jitq.Optimize.predecessorType
  rw [hgraph]
  cases hpred : dag.graph.predecessor v with
  | none => rfl
  | some u =>
    simp only [asserted, ok_bind, ownType]
    rw [h.op (u, v) (mem_edges_of_predecessor hpred) rfl]

/-- Another operator in the same place. -/
theorem setOp (x : Vertex (NestedDag n)) : SamePredecessors (setOp dag v x) (setOp dag' v x) v where
  flows := h.flows
  op e he htgt := by
    by_cases heq : e.1 = v
    · rw [heq, op_setOp_self, op_setOp_self]
    · rw [op_setOp_of_ne heq, op_setOp_of_ne heq]
      exact h.op e he htgt

end

end SamePredecessors

/-- Without a flow from the operator to itself, its predecessors do not change with it. -/
theorem samePredecessors_setOp (hacyc : dag.Acyclic) (x : Vertex (NestedDag n)) :
    SamePredecessors dag (setOp dag v x) v where
  flows := rfl
  op e he htgt := by
    refine op_setOp_of_ne (fun heq => hacyc v (.single ?_)) x
    show (v, v) ∈ dag.edges
    rwa [show (v, v) = e from Prod.ext heq.symm htgt.symm]

theorem newVertex_congr (h : SamePredecessors dag dag' v) (hop : dag'.op v = dag.op v) :
    newVertex infer dag' v = newVertex infer dag v := by
  unfold newVertex
  rw [hop, h.predecessorTypeOn]
  refine bind_congr fun inner => ?_
  have hsame := h.setOp ⟨(dag.op v).operator, inner⟩
  have htype : computeOutputType (setOp dag' v ⟨(dag.op v).operator, inner⟩) v =
      computeOutputType (setOp dag v ⟨(dag.op v).operator, inner⟩) v := by
    apply computeOutputType_congr _ hsame.predecessorType hsame.predecessorTypeOn
    · unfold innerOutputType
      rw [op_setOp_self, op_setOp_self]
    · unfold ownType
      rw [op_setOp_self, op_setOp_self]
    · rw [op_setOp_self, op_setOp_self]
  rw [htype]

/-! ### The inputs of the inner DAG -/

/-- The last of the types that are given to an operator. -/
def lastType (types : List (ℕ × TupleType)) (p : ℕ) : Option TupleType := types.reverse.lookup p

/-- The types are set one after the other, so that the last one counts. -/
theorem foldl_setTypeOf (types : List (ℕ × TupleType)) (dag : OpDag (NestedDag n)) :
    types.foldl (fun (dag : NestedDag (n + 1)) t => setTypeOf dag t.1 t.2) dag =
      { dag with op := fun p => (lastType types p).elim (dag.op p) (setTuple (dag.op p)) } := by
  induction types generalizing dag with
  | nil => rfl
  | cons t types ih =>
    obtain ⟨q, type⟩ := t
    refine (ih (setOp dag q (setTuple (dag.op q) type))).trans ?_
    show PortedDag.mk _ _ _ _ _ = PortedDag.mk _ _ _ _ _
    congr 1
    funext p
    have hlast : lastType ((q, type) :: types) p =
        (lastType types p).or (if p = q then some type else none) := by
      rw [lastType, reverse_cons, lookup_append]
      by_cases hp : p = q
      · simp [hp, lastType]
      · simp [lookup_cons, hp, beq_false_of_ne hp, lastType]
    rw [hlast]
    -- a later type replaces the one that is set now
    by_cases hp : p = q
    · subst hp
      rw [op_setOp_self, if_pos rfl]
      cases lastType types p <;> rfl
    · rw [op_setOp_of_ne hp, if_neg hp, Option.or_none]

theorem setInputTypes_eq_ok {inner' : NestedDag n} :
    setInputTypes inputType inner = .ok inner' ↔ ∃ types : List (ℕ × TupleType),
      List.Forall₂ (fun e t => e.2.op = t.1 ∧ inputType e.1 = .ok t.2) inner.inputs.entries types ∧
      inner' = types.foldl (fun dag t => setTypeOf dag t.1 t.2) inner := by
  unfold setInputTypes
  generalize inner.inputs.entries = es
  induction es generalizing inner with
  | nil =>
    constructor
    · intro h
      exact ⟨[], .nil, (Except.ok.inj h).symm⟩
    · rintro ⟨types, hall, rfl⟩
      cases hall
      rfl
  | cons e es ih =>
    rw [foldlM_cons, bind_eq_ok]
    constructor
    · rintro ⟨next, hvisit, hrest⟩
      obtain ⟨type, htype, hnext⟩ := bind_eq_ok.mp hvisit
      cases hnext
      obtain ⟨types, hall, hfold⟩ := ih.mp hrest
      exact ⟨(e.2.op, type) :: types, .cons ⟨rfl, htype⟩ hall, hfold⟩
    · rintro ⟨types, hall, rfl⟩
      cases hall with
      | @cons _ t _ types ht hall =>
        obtain ⟨hop, htype⟩ := ht
        refine ⟨setTypeOf inner e.2.op t.2, bind_eq_ok.mpr ⟨t.2, htype, rfl⟩, ih.mpr ⟨types, hall, ?_⟩⟩
        rw [hop]
        rfl

/-- What the inner DAG keeps when types are set and inferred: everything but the types, and of lookups the
    types, too. -/
structure KeepsLookups (inner inner' : NestedDag n) : Prop where
  inputs : inner'.inputs = inner.inputs
  lookup : ∀ p, (inner.operator p).cls = .parameterLookup → inner'.operator p = inner.operator p

theorem mem_of_lastType {p : ℕ} (h : lastType types p = some type) : (p, type) ∈ types := by
  obtain ⟨before, after, hsplit, -⟩ := lookup_eq_some_iff.mp h
  rw [← mem_reverse, hsplit]
  exact mem_append_right _ mem_cons_self

/-- Every type that is set is the type of an input. -/
theorem exists_input_of_lastType {es : List (ℕ × FlowTip)} {p : ℕ}
    (hall : List.Forall₂ (fun e t => e.2.op = t.1 ∧ inputType e.1 = .ok t.2) es types)
    (h : lastType types p = some type) : ∃ e ∈ es, e.2.op = p ∧ inputType e.1 = .ok type := by
  exact Partial.exists_left_of_mem hall (mem_of_lastType h)

/-- Lookups that have the types of the inputs get them again. -/
theorem setInputTypes_again {inner2 : NestedDag n}
    (hlook : ∀ e ∈ inner.inputs.entries, (inner.operator e.2.op).cls = .parameterLookup)
    (h : setInputTypes inputType inner = .ok inner₁) (hkeeps : KeepsLookups inner₁ inner2) :
    setInputTypes inputType inner2 = .ok inner2 := by
  cases n with
  | zero => cases inner
  | succ n =>
    obtain ⟨types, hall, rfl⟩ := setInputTypes_eq_ok.mp h
    rw [foldl_setTypeOf] at hkeeps
    have hins : inner2.inputs = inner.inputs := hkeeps.inputs
    refine setInputTypes_eq_ok.mpr ⟨types, by rwa [hins], ?_⟩
    rw [foldl_setTypeOf]
    refine PortedDag.ext rfl (funext fun p => ?_) rfl rfl rfl
    show PortedDag.op inner2 p = (lastType types p).elim (PortedDag.op inner2 p) (setTuple (PortedDag.op inner2 p))
    cases htype : lastType types p with
    | none => rfl
    | some type =>
      obtain ⟨e, he, rfl, -⟩ := exists_input_of_lastType hall htype
      have hkept := hkeeps.lookup e.2.op
      simp only [NestedDag.operator, htype, Option.elim_some, setTuple] at hkept
      have htuple := hkept (hlook e he)
      show PortedDag.op inner2 e.2.op = setTuple (PortedDag.op inner2 e.2.op) type
      unfold setTuple
      rw [htuple]
      exact congrArg (Vertex.mk · _) htuple

theorem inputs_setInputTypes (h : setInputTypes inputType inner = .ok inner₁) : inner₁.inputs = inner.inputs := by
  cases n with
  | zero => cases inner
  | succ n =>
    obtain ⟨types, -, rfl⟩ := setInputTypes_eq_ok.mp h
    rw [foldl_setTypeOf]
    rfl

theorem exists_lastType {es : List (ℕ × FlowTip)} {e : ℕ × FlowTip}
    (hall : List.Forall₂ (fun e t => e.2.op = t.1 ∧ inputType e.1 = .ok t.2) es types) (he : e ∈ es) :
    ∃ type, lastType types e.2.op = some type := by
  obtain ⟨t, ht, heq, -⟩ := Partial.exists_left_of_mem hall.flip he
  cases hlast : lastType types e.2.op with
  | some type => exact ⟨type, rfl⟩
  | none =>
    have hnone := lookup_eq_none_iff.mp hlast t (mem_reverse.mpr ht)
    simp [heq] at hnone

/-- A lookup that is fed through one port has the type of that input, also after the inner DAG has been
    visited. -/
theorem tuple_of_input {inner2 : NestedDag n}
    (hlook : ∀ e ∈ inner.inputs.entries, (inner.operator e.2.op).cls = .parameterLookup)
    (h : setInputTypes inputType inner = .ok inner₁) (hkeeps : KeepsLookups inner₁ inner2) {e : ℕ × FlowTip}
    (he : e ∈ inner.inputs.entries) (hport : ∀ e' ∈ inner.inputs.entries, e'.2.op = e.2.op → e'.1 = e.1) :
    ∃ type, inputType e.1 = .ok type ∧ (inner2.operator e.2.op).tuple = some type := by
  cases n with
  | zero => cases inner
  | succ n =>
    obtain ⟨types, hall, rfl⟩ := setInputTypes_eq_ok.mp h
    obtain ⟨type, htype⟩ := exists_lastType hall he
    obtain ⟨e', he', hop, hinp⟩ := exists_input_of_lastType hall htype
    rw [hport e' he' hop] at hinp
    refine ⟨type, hinp, ?_⟩
    rw [foldl_setTypeOf] at hkeeps
    have hkept := hkeeps.lookup e.2.op
    simp only [NestedDag.operator, htype, Option.elim_some, setTuple] at hkept
    show (PortedDag.op inner2 e.2.op).operator.tuple = some type
    rw [hkept (hlook e he)]

/-- What a second visit of an operator relies on: the inner DAG can be visited again. -/
structure InnerAgain (infer : NestedDag n → Typed (NestedDag n)) (inputType : ℕ → Typed TupleType)
    (inner : NestedDag n) : Prop where
  lookup : ∀ e ∈ inner.inputs.entries, (inner.operator e.2.op).cls = .parameterLookup
  again : ∀ inner₁ inner₂, setInputTypes inputType inner = .ok inner₁ → infer inner₁ = .ok inner₂ →
    KeepsLookups inner₁ inner₂ ∧ infer inner₂ = .ok inner₂

theorem newInner_again (hinner : ∀ inner ∈ innerDag, InnerAgain infer inputType inner)
    (h : newInner infer inputType innerDag = .ok innerDag') : newInner infer inputType innerDag' = .ok innerDag' := by
  obtain ⟨-, rfl⟩ | ⟨inner, inner₁, inner2, rfl, rfl, hset, hinfer⟩ := newInner_eq_ok.mp h
  · rfl
  · obtain ⟨hlook, hagain⟩ := hinner inner rfl
    obtain ⟨hkeeps, hinfer2⟩ := hagain inner₁ inner2 hset hinfer
    exact newInner_eq_ok.mpr (.inr ⟨_, _, _, rfl, rfl, setInputTypes_again hlook hset hkeeps, hinfer2⟩)

/-- The computed type is the one that is computed afterwards. -/
theorem computeOutputType_newVertex (hacyc : dag.Acyclic) (h : newVertex infer dag v = .ok x) :
    ∃ type, x.operator.tuple = some type ∧ computeOutputType (setOp dag v x) v = .ok type := by
  obtain ⟨inner, type, -, htype, rfl⟩ := newVertex_eq_ok.mp h
  refine ⟨type, rfl, ?_⟩
  have hbefore := samePredecessors_setOp (v := v) hacyc ⟨(dag.op v).operator, inner⟩
  have hafter := samePredecessors_setOp (v := v) hacyc
    ⟨{ (dag.op v).operator with tuple := some type }, inner⟩
  apply computeOutputType_again _ (hafter.predecessorType.trans hbefore.predecessorType.symm)
    (hafter.predecessorTypeOn.trans hbefore.predecessorTypeOn.symm) _ _ htype
  · rw [op_setOp_self, op_setOp_self]
  · unfold innerOutputType
    rw [op_setOp_self, op_setOp_self]
  · unfold ownType
    rw [op_setOp_self]
    rfl

theorem newVertex_again (hacyc : dag.Acyclic)
    (hinner : ∀ inner ∈ (dag.op v).innerDag, InnerAgain infer (predecessorTypeOn dag v) inner)
    (h : newVertex infer dag v = .ok x) : newVertex infer (setOp dag v x) v = .ok x := by
  obtain ⟨type, htuple, htype⟩ := computeOutputType_newVertex hacyc h
  obtain ⟨inner, own, hnew, -, rfl⟩ := newVertex_eq_ok.mp h
  obtain rfl : own = type := Option.some.inj htuple
  refine newVertex_eq_ok.mpr ⟨inner, own, ?_, ?_, ?_⟩
  · rw [(samePredecessors_setOp hacyc _).predecessorTypeOn, op_setOp_self]
    exact newInner_again hinner hnew
  · rw [op_setOp_self, setOp_setOp]
    exact htype
  · rw [op_setOp_self]

/-- The type of a lookup does not change. -/
theorem newVertex_lookup (hcls : (dag.op v).operator.cls = .parameterLookup) (h : newVertex infer dag v = .ok x) :
    x.operator = (dag.op v).operator := by
  obtain ⟨inner, type, -, htype, rfl⟩ := newVertex_eq_ok.mp h
  unfold computeOutputType ownType at htype
  rw [op_setOp_self] at htype
  simp only [hcls] at htype
  cases htuple : (dag.op v).operator.tuple with
  | none =>
    rw [htuple] at htype
    cases htype
  | some own =>
    rw [htuple] at htype
    obtain rfl := Except.ok.inj htype
    show ({ (dag.op v).operator with tuple := some own } : DagOperator) = (dag.op v).operator
    rw [← htuple]

end

/-! ### A run is a sweep -/

section

variable {n : ℕ} {infer : NestedDag n → Typed (NestedDag n)} {dag : OpDag (NestedDag n)}

/-- The visits as a function of the operators alone. -/
def visits (infer : NestedDag n → Typed (NestedDag n)) (dag : OpDag (NestedDag n)) (v : ℕ)
    (ops : ℕ → Vertex (NestedDag n)) : Typed (Vertex (NestedDag n)) :=
  newVertex infer { dag with op := ops } v

theorem isLocal_visits : IsLocal dag.edges (visits infer dag) := by
  intro v s s' hown hpred
  exact newVertex_congr ⟨rfl, hpred⟩ hown

theorem foldlM_visitOperator {order : List ℕ} : order.foldlM (visitOperator infer) dag =
    sweep (visits infer dag) order dag.op >>= fun ops => .ok { dag with op := ops } := by
  induction order generalizing dag with
  | nil => rfl
  | cons v order ih =>
    unfold sweep
    rw [foldlM_cons, visitOperator_eq, bind_assoc, foldlM_cons, bind_assoc, bind_assoc]
    exact bind_congr fun x => ih

end

/-! ### The result -/

section

variable {n : ℕ} {topSort : TopologicalSort ℕ}

/-- One level of the plans that are typed: acyclic, and the inputs of inner DAGs are lookups. -/
structure TypableLevel (dag : OpDag (NestedDag n)) : Prop where
  closed : dag.Closed
  acyclic : dag.Acyclic
  lookup : ∀ v ∈ dag.operators, ∀ inner ∈ (dag.op v).innerDag,
    ∀ e ∈ inner.inputs.entries, (inner.operator e.2.op).cls = .parameterLookup

/-- A lookup that is fed through one port has the type of the operator that feeds the port. -/
def LookupsTyped (dag : OpDag (NestedDag n)) : Prop :=
  ∀ v ∈ dag.operators, ∀ inner ∈ (dag.op v).innerDag, ∀ e ∈ inner.inputs.entries,
    (∀ e' ∈ inner.inputs.entries, e'.2.op = e.2.op → e'.1 = e.1) →
      ∃ u type, dag.graph.predecessorOn v e.1 = some u ∧ (dag.op u).operator.tuple = some type ∧
        (inner.operator e.2.op).tuple = some type

theorem TypableLevel.order {dag : OpDag (NestedDag n)} (h : TypableLevel dag)
    (hsort : IsTopologicalSort topSort) :
    let order := (topSort dag.operators dag.edges).reverse
    PredecessorsFirst dag.edges order ∧ order.Nodup ∧ ∀ v, v ∈ order ↔ v ∈ dag.operators := by
  have hedges : ∀ e ∈ dag.edges, e.1 ∈ dag.operators ∧ e.2 ∈ dag.operators := by
    intro e he
    obtain ⟨f, hf, rfl⟩ := mem_map.mp he
    exact ⟨h.closed.source f hf, h.closed.target f hf⟩
  have hperm := (hsort dag.operators dag.edges h.closed.nodup hedges h.acyclic).1
  refine ⟨predecessorsFirst_reverse hsort h.closed.nodup hedges h.acyclic, ?_, fun v => ?_⟩
  · rw [nodup_reverse]
    exact hperm.symm.nodup h.closed.nodup
  · rw [mem_reverse, hperm.mem_iff]

/-- A run computes the solution of one equation per operator, whatever the order. -/
theorem typeInference_succ {dag result : OpDag (NestedDag n)} (h : TypableLevel dag)
    (hsort : IsTopologicalSort topSort) :
    typeInference topSort (n + 1) dag = .ok result ↔
      ∃ ops, IsSolution (visits (typeInference topSort n) dag) dag.op dag.operators ops ∧
        result = { dag with op := ops } := by
  obtain ⟨hfirst, hnd, hmem⟩ := h.order hsort
  rw [typeInference, foldlM_visitOperator, bind_eq_ok]
  refine exists_congr fun ops => and_congr ?_ (by rw [Except.ok.injEq, eq_comm])
  rw [sweep_eq_ok_iff isLocal_visits hfirst hnd]
  constructor
  · exact fun hops => ⟨fun v hv => hops.visited v ((hmem v).mpr hv), fun v hv =>
      hops.kept v fun hv' => hv ((hmem v).mp hv')⟩
  · exact fun hops => ⟨fun v hv => hops.visited v ((hmem v).mp hv), fun v hv =>
      hops.kept v fun hv' => hv ((hmem v).mpr hv')⟩

/-- Setting types keeps what makes a plan typable. -/
theorem typable_setInputTypes {inputType : ℕ → Typed TupleType} {inner inner' : NestedDag n}
    (h : OnLevels TypableLevel n inner) (hset : setInputTypes inputType inner = .ok inner') :
    OnLevels TypableLevel n inner' := by
  cases n with
  | zero => cases inner
  | succ n =>
    obtain ⟨types, -, rfl⟩ := setInputTypes_eq_ok.mp hset
    rw [foldl_setTypeOf]
    have hinner : ∀ p, ((lastType types p).elim (PortedDag.op inner p)
        (setTuple (PortedDag.op inner p))).innerDag = (PortedDag.op inner p).innerDag := by
      intro p
      cases lastType types p <;> rfl
    obtain ⟨⟨hclosed, hacyc, hlook⟩, hrest⟩ := h
    refine ⟨⟨⟨hclosed.nodup, hclosed.source, hclosed.target, hclosed.input, hclosed.output⟩, hacyc,
      fun v hv x hx => ?_⟩, fun v hv x hx => ?_⟩
    · exact hlook v hv x (hinner v ▸ hx)
    · exact hrest v hv x (hinner v ▸ hx)

/-- What is known about a run that completes. -/
structure Inferred (topSort : TopologicalSort ℕ) (n : ℕ) (dag result : NestedDag n) : Prop where
  keeps : KeepsLookups dag result
  again : typeInference topSort n result = .ok result
  checks : ∀ sort, IsTopologicalSort sort → checkTypes sort n result = .ok ()
  typed : OnLevels LookupsTyped n result
  order : ∀ sort, IsTopologicalSort sort → typeInference sort n dag = .ok result

section

variable {dag : OpDag (NestedDag n)} {ops : ℕ → Vertex (NestedDag n)}
  {infer infer' : NestedDag n → Typed (NestedDag n)} {v : ℕ}

/-- The plan as a visit finds it: the predecessors have their types, the operator has not. -/
def beforeVisit (dag : OpDag (NestedDag n)) (ops : ℕ → Vertex (NestedDag n)) (v : ℕ) :
    OpDag (NestedDag n) := { dag with op := update ops v (dag.op v) }

@[simp] theorem op_beforeVisit : (beforeVisit dag ops v).op v = dag.op v := by
  show update ops v (dag.op v) v = dag.op v
  rw [update_self]

theorem setOp_beforeVisit : setOp (beforeVisit dag ops v) v (ops v) = { dag with op := ops } := by
  unfold setOp beforeVisit
  rw [update_idem, update_eq_self]

theorem checkOutputType_newVertex (hacyc : dag.Acyclic)
    (h : newVertex infer (beforeVisit dag ops v) v = .ok (ops v)) :
    checkOutputType { dag with op := ops } v = .ok () := by
  obtain ⟨type, htuple, htype⟩ := computeOutputType_newVertex (show (beforeVisit dag ops v).Acyclic from hacyc) h
  rw [setOp_beforeVisit] at htype
  have hown : ownType { dag with op := ops } v = .ok type := by
    unfold ownType
    rw [htuple]
    rfl
  unfold checkOutputType
  rw [htype, ok_bind, hown, ok_bind]
  simp [require]

/-- The inner DAG that an operator has in the end comes from the one it had. -/
theorem exists_inner_of_newVertex {x : Vertex (NestedDag n)}
    (h : newVertex infer (beforeVisit dag ops v) v = .ok x) {inner2 : NestedDag n}
    (hinner2 : x.innerDag = some inner2) : ∃ inner inner₁, (dag.op v).innerDag = some inner ∧
      setInputTypes (predecessorTypeOn (beforeVisit dag ops v) v) inner = .ok inner₁ ∧
      infer inner₁ = .ok inner2 := by
  obtain ⟨innerDag, type, hnew, -, rfl⟩ := newVertex_eq_ok.mp h
  rw [op_beforeVisit] at hnew
  obtain ⟨-, rfl⟩ | ⟨inner, inner₁, inner', hinner, rfl, hset, hinfer⟩ := newInner_eq_ok.mp hnew
  · cases hinner2
  · cases hinner2
    exact ⟨inner, inner₁, hinner, hset, hinfer⟩

/-- A visit with another function for the inner DAG. -/
theorem newVertex_infer (hinner : ∀ inner ∈ (dag.op v).innerDag, ∀ inputType inner₁ inner2,
      setInputTypes inputType inner = .ok inner₁ → infer inner₁ = .ok inner2 → infer' inner₁ = .ok inner2)
    {x : Vertex (NestedDag n)} (h : newVertex infer dag v = .ok x) : newVertex infer' dag v = .ok x := by
  obtain ⟨innerDag, type, hnew, htype, rfl⟩ := newVertex_eq_ok.mp h
  refine newVertex_eq_ok.mpr ⟨innerDag, type, newInner_eq_ok.mpr ?_, htype, rfl⟩
  refine (newInner_eq_ok.mp hnew).imp_right ?_
  rintro ⟨inner, inner₁, inner2, hsome, heq, hset, hinfer⟩
  exact ⟨inner, inner₁, inner2, hsome, heq, hset, hinner inner hsome _ inner₁ inner2 hset hinfer⟩

end

theorem inferred (hsort : IsTopologicalSort topSort) (n : ℕ) (dag result : NestedDag n)
    (h : OnLevels TypableLevel n dag) (hrun : typeInference topSort n dag = .ok result) :
    Inferred topSort n dag result := by
  induction n with
  | zero => cases dag
  | succ n ih =>
    obtain ⟨hlevel, hinner⟩ := h
    obtain ⟨ops, hops, rfl⟩ := (typeInference_succ hlevel hsort).mp hrun
    have hvisited : ∀ v ∈ PortedDag.operators dag, newVertex (typeInference topSort n)
        (beforeVisit dag ops v) v = .ok (ops v) := hops.visited
    have hacyc : ∀ v, (beforeVisit dag ops v).Acyclic := fun _ => hlevel.acyclic
    have hih : ∀ v ∈ PortedDag.operators dag, ∀ inner ∈ (PortedDag.op dag v).innerDag,
        ∀ inputType inner₁ inner2, setInputTypes inputType inner = .ok inner₁ →
          typeInference topSort n inner₁ = .ok inner2 → Inferred topSort n inner₁ inner2 := by
      intro v hv inner hsome inputType inner₁ inner2 hset hinfer
      exact ih inner₁ inner2 (typable_setInputTypes (hinner v hv inner hsome) hset) hinfer
    have hnested : ∀ v ∈ PortedDag.operators dag, ∀ inner2, (ops v).innerDag = some inner2 → ∃ inner inner₁,
        (PortedDag.op dag v).innerDag = some inner ∧
          setInputTypes (predecessorTypeOn (beforeVisit dag ops v) v) inner = .ok inner₁ ∧
            Inferred topSort n inner₁ inner2 := by
      intro v hv inner2 hsome
      obtain ⟨inner, inner₁, hinner1, hset, hinfer⟩ := exists_inner_of_newVertex (hvisited v hv) hsome
      exact ⟨inner, inner₁, hinner1, hset, hih v hv inner hinner1 _ inner₁ inner2 hset hinfer⟩
    have hagain : ∀ v ∈ PortedDag.operators dag, newVertex (typeInference topSort n)
        { (dag : PortedDag _) with op := ops } v = .ok (ops v) := by
      intro v hv
      rw [← setOp_beforeVisit (v := v)]
      refine newVertex_again (hacyc v) (fun inner hsome => ?_) (hvisited v hv)
      rw [op_beforeVisit] at hsome
      refine ⟨hlevel.lookup v hv inner hsome, fun inner₁ inner2 hset hinfer => ?_⟩
      have hinferred := hih v hv inner hsome _ inner₁ inner2 hset hinfer
      exact ⟨hinferred.keeps, hinferred.again⟩
    refine ⟨⟨rfl, fun p hp => ?_⟩, ?_, fun sort hsort' => ?_, ⟨?_, ?_⟩, fun sort hsort' => ?_⟩
    · -- a lookup is visited, and keeps its type, or it is not visited
      by_cases hmem : p ∈ PortedDag.operators dag
      · have hkept := newVertex_lookup (by rw [op_beforeVisit]; exact hp) (hvisited p hmem)
        rw [op_beforeVisit] at hkept
        exact hkept
      · exact congrArg Vertex.operator (hops.kept p hmem)
    · obtain ⟨hfirst, hnd, hmem⟩ := hlevel.order hsort
      rw [typeInference, foldlM_visitOperator, bind_eq_ok]
      refine ⟨ops, (sweep_eq_ok_iff isLocal_visits hfirst hnd).mpr ⟨fun v hv => ?_, fun _ _ => rfl⟩, rfl⟩
      rw [update_eq_self]
      exact hagain v ((hmem v).mp hv)
    · obtain ⟨-, -, hmem⟩ := hlevel.order hsort'
      refine forM_eq_ok.mpr fun v hv => ?_
      have hv := (hmem v).mp hv
      refine bind_eq_ok.mpr ⟨(), checkOutputType_newVertex hlevel.acyclic (hvisited v hv), ?_⟩
      cases hsome : (ops v).innerDag with
      | none => rfl
      | some inner2 =>
        obtain ⟨_, _, -, -, hinferred⟩ := hnested v hv inner2 hsome
        exact hinferred.checks sort hsort'
    · intro v hv inner2 hsome e he hport
      obtain ⟨inner, inner₁, hinner1, hset, ⟨hkeeps⟩⟩ := hnested v hv inner2 hsome
      rw [hkeeps.inputs, inputs_setInputTypes hset] at he hport
      obtain ⟨type, htype, htuple⟩ := tuple_of_input (hlevel.lookup v hv inner hinner1) hset hkeeps he hport
      have hsame : SamePredecessors (beforeVisit dag ops v) { (dag : PortedDag _) with op := ops } v := by
        rw [← setOp_beforeVisit (v := v)]
        exact samePredecessors_setOp (hacyc v) (ops v)
      rw [← hsame.predecessorTypeOn] at htype
      obtain ⟨u, hpred, hown⟩ := predecessorTypeOn_eq_ok.mp htype
      exact ⟨u, type, hpred, hown, htuple⟩
    · intro v hv inner2 hsome
      obtain ⟨_, _, -, -, hinferred⟩ := hnested v hv inner2 hsome
      exact hinferred.typed
    · refine (typeInference_succ hlevel hsort').mpr ⟨ops, ⟨fun v hv => ?_, hops.kept⟩, rfl⟩
      refine newVertex_infer (fun inner hsome inputType inner₁ inner2 hset hinfer => ?_) (hvisited v hv)
      have hsome : inner ∈ ((beforeVisit dag ops v).op v).innerDag := hsome
      rw [op_beforeVisit] at hsome
      exact (hih v hv inner hsome inputType inner₁ inner2 hset hinfer).order sort hsort'

end

/-- **One pass types a plan.**  If the pass completes, then lookups have the types of the operators that feed
    them; a second run changes nothing; and with any topological order the check accepts the result, and the
    pass reaches it. -/
theorem typeInference_consistent (topSort : TopologicalSort ℕ)
    (hsort : IsTopologicalSort topSort) (n : ℕ) (dag result : NestedDag n)
    (h : OnLevels TypableLevel n dag) (hrun : typeInference topSort n dag = .ok result) :
    checkTypes topSort n result = .ok () ∧ OnLevels LookupsTyped n result ∧
      typeInference topSort n result = .ok result ∧
      ∀ sort, IsTopologicalSort sort →
        typeInference sort n dag = .ok result ∧ checkTypes sort n result = .ok () := by
  obtain ⟨-, hagain, hchecks, htyped, horder⟩ := inferred hsort n dag result h hrun
  exact ⟨hchecks topSort hsort, htyped, hagain, fun sort hsort' =>
    ⟨horder sort hsort', hchecks sort hsort'⟩⟩

/-- The rows that are looked up as one vector. -/
def collectLookup (lookup collected : Option TupleType) : NestedDag 1 where
  operators := [0, 1]
  op
    | 0 => ⟨⟨0, lookup, "", .parameterLookup⟩, none⟩
    | 1 => ⟨⟨1, collected, "", .materializeRowVector⟩, none⟩
    | _ => default
  flows := [⟨⟨0, 0⟩, ⟨1, 0⟩⟩]
  inputs := (∅ : MultiMap ℕ FlowTip).emplace 0 ⟨0, 0⟩
  outputs := (∅ : Map ℕ FlowTip).assign 0 ⟨1, 0⟩

/-- A constant that is collected in parallel. -/
def collectPlan (collected lookup : Option TupleType) : NestedDag 2 where
  operators := [0, 1]
  op
    | 0 => ⟨⟨0, some [.long], "", .constantTuple ["1"]⟩, none⟩
    | 1 => ⟨⟨1, collected, "", .parallelMap⟩, some (collectLookup lookup collected)⟩
    | _ => default
  flows := [⟨⟨0, 0⟩, ⟨1, 0⟩⟩]
  inputs := ∅
  outputs := (∅ : Map ℕ FlowTip).assign 0 ⟨1, 0⟩

theorem chain_typable {n : ℕ} {op : ℕ → Vertex (NestedDag n)} {inputs : MultiMap ℕ FlowTip}
    (hinp : ∀ e ∈ inputs.entries, e.2.op ∈ [0, 1])
    (hlook : ∀ v ∈ [0, 1], ∀ inner ∈ (op v).innerDag, ∀ e ∈ inner.inputs.entries,
      (inner.operator e.2.op).cls = .parameterLookup) :
    TypableLevel ⟨[0, 1], op, [⟨⟨0, 0⟩, ⟨1, 0⟩⟩], inputs, (∅ : Map ℕ FlowTip).assign 0 ⟨1, 0⟩⟩ := by
  refine ⟨⟨by simp, by simp, by simp, hinp, by simp [Map.mem_assign]⟩, ?_, hlook⟩
  have hranked : Graphs.Ranked [(0, 1)] fun v => v := by simp [Graphs.Ranked]
  exact hranked.acyclic

theorem collectLookup_typable (lookup collected : Option TupleType) :
    OnLevels TypableLevel 1 (collectLookup lookup collected) :=
  ⟨chain_typable (by decide) fun _ _ inner => (nomatch inner), fun _ _ inner => (nomatch inner)⟩

theorem collectPlan_typable (collected lookup : Option TupleType) :
    OnLevels TypableLevel 2 (collectPlan collected lookup) := by
  have hinner : ∀ v ∈ [0, 1], ∀ inner ∈ (PortedDag.op (collectPlan collected lookup) v).innerDag,
      inner = collectLookup lookup collected := by
    intro v hv inner hsome
    rcases mem_pair.mp hv with rfl | rfl
    · cases hsome
    · exact (Option.some.inj hsome).symm
  refine ⟨chain_typable (by simp) fun v hv inner hsome e he => ?_, fun v hv inner hsome => ?_⟩
  · rw [hinner v hv inner hsome] at he ⊢
    obtain rfl : e = (0, ⟨0, 0⟩) := mem_singleton.mp he
    rfl
  · rw [hinner v hv inner hsome]
    exact collectLookup_typable lookup collected

theorem typeInference_collectLookup : typeInference sinksFirst 1 (collectLookup (some [.long]) none) =
    .ok (collectLookup (some [.long]) (some [.vector [.long]])) := by
  refine (typeInference_succ (collectLookup_typable _ _).1 isTopologicalSort_sinksFirst).mpr
    ⟨_, ⟨fun v hv => ?_, fun v hv => ?_⟩, rfl⟩
  · rcases mem_pair.mp hv with rfl | rfl <;> rfl
  · match v with
    | 0 => exact absurd mem_cons_self hv
    | 1 => exact absurd (mem_cons_of_mem _ mem_cons_self) hv
    | _ + 2 => rfl

theorem typeInference_collectPlan : typeInference sinksFirst 2 (collectPlan none none) =
    .ok (collectPlan (some [.vector [.long]]) (some [.long])) := by
  refine (typeInference_succ (collectPlan_typable _ _).1 isTopologicalSort_sinksFirst).mpr
    ⟨_, ⟨fun v hv => ?_, fun v hv => ?_⟩, rfl⟩
  · rcases mem_pair.mp hv with rfl | rfl
    · rfl
    · refine newVertex_eq_ok.mpr ⟨some (collectLookup (some [.long]) (some [.vector [.long]])),
        [.vector [.long]], ?_, rfl, rfl⟩
      refine bind_eq_ok.mpr ⟨collectLookup (some [.long]) none, ?_, ?_⟩
      · refine setInputTypes_eq_ok.mpr ⟨[(0, [.long])], .cons ⟨rfl, rfl⟩ .nil, ?_⟩
        refine PortedDag.ext rfl (funext fun p => ?_) rfl rfl rfl
        match p with
        | 0 | 1 | _ + 2 => rfl
      · rw [typeInference_collectLookup]
        rfl
  · match v with
    | 0 => exact absurd mem_cons_self hv
    | 1 => exact absurd (mem_cons_of_mem _ mem_cons_self) hv
    | _ + 2 => rfl

/-- The types of two levels that are not set. -/
theorem typeInference_consistent_collectPlan : IsTopologicalSort (sinksFirst (V := ℕ)) ∧
    OnLevels TypableLevel 2 (collectPlan none none) ∧
    checkTypes sinksFirst 2 (collectPlan (some [.vector [.long]]) (some [.long])) = .ok () ∧
    OnLevels LookupsTyped 2 (collectPlan (some [.vector [.long]]) (some [.long])) := by
  obtain ⟨hcheck, htyped, -, -⟩ := typeInference_consistent sinksFirst isTopologicalSort_sinksFirst 2
    (collectPlan none none) (collectPlan (some [.vector [.long]]) (some [.long])) (collectPlan_typable _ _)
    typeInference_collectPlan
  exact ⟨isTopologicalSort_sinksFirst, collectPlan_typable _ _, hcheck, htyped⟩

end Jitq.Optimize

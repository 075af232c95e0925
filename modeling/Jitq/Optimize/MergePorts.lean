import Jitq.Optimize.MergeTermination
import Mathlib.Data.List.Permutation

namespace Jitq.Optimize

open SortedMap Partial Graphs List Option

/-! # The ports of merged operators

The input ports of a `ConcurrentExecute` are `0`, `1`, …, each with one in-flow and one lookup in the inner
DAG.  A merge gives the ports that become free to the inputs of the absorbed operator, smallest first, and
then counts on from the number of inputs.  If the absorbed operator has fewer inputs than flows to the other
one, then the largest free ports are left over, which is a gap unless they are the last ones.

* `newPorts` — the ports that are given out;
* `PortsConsistent` — the ports have no gaps;
* `FillsPorts` — the condition under which a merge leaves no gap;
* `MergeKeeps` — what every merge keeps;
* `ports_consistent_iff` — the main result. -/

variable {I : Type}

/-! ### The ports that are given out -/

/-- The free ports come first, and then new ones. -/
theorem newPorts_eq (free : List ℕ) (degree m : ℕ) : newPorts free degree m =
    free.take m ++ range' (degree + free.length) (m - free.length) := by
  induction m generalizing free degree with
  | zero => simp [newPorts]
  | succ m ih =>
    rw [newPorts, ih]
    cases free with
    | nil => simp [range'_succ]
    | cons p free => simp [Nat.add_right_comm, Nat.add_assoc]

theorem mem_newPorts {free : List ℕ} {degree m x : ℕ} (h : x ∈ newPorts free degree m) :
    x ∈ free ∨ degree + free.length ≤ x := by
  rw [newPorts_eq, mem_append, mem_range'_1] at h
  exact h.imp mem_of_mem_take And.left

@[simp] theorem length_newPorts (free : List ℕ) (degree m : ℕ) : (newPorts free degree m).length = m := by
  rw [newPorts_eq, length_append, length_take, length_range']
  omega

theorem nodup_newPorts {free : List ℕ} {degree m : ℕ} (hnd : free.Nodup)
    (hlt : ∀ p ∈ free, p < degree + free.length) : (newPorts free degree m).Nodup := by
  rw [newPorts_eq]
  refine nodup_append.mpr ⟨hnd.sublist (take_sublist m free), nodup_range', fun x hx y hy heq => ?_⟩
  have := hlt x (mem_of_mem_take hx)
  have := (mem_range'_1.mp hy).1
  omega

/-- An increasing list that starts with `p` has its other elements between `p` and any bound. -/
theorem add_length_lt {ps : List ℕ} {p bound : ℕ} (hsorted : (p :: ps).Pairwise (· < ·))
    (hlt : ∀ q ∈ p :: ps, q < bound) : p + ps.length < bound := by
  induction ps generalizing p with
  | nil => exact hlt p mem_cons_self
  | cons q ps ih =>
    obtain ⟨hhead, htail⟩ := pairwise_cons.mp hsorted
    have hrest := ih htail fun r hr => hlt r (mem_cons_of_mem p hr)
    have hpq := hhead q mem_cons_self
    rw [length_cons]
    omega

/-- The free ports are given out in order, so that none is too large. -/
theorem newPorts_lt {free : List ℕ} {degree m x : ℕ} (hsorted : free.Pairwise (· < ·))
    (hlt : ∀ p ∈ free, p < degree + free.length) (h : x ∈ newPorts free degree m) : x < degree + m := by
  rw [newPorts_eq, mem_append, mem_range'_1] at h
  obtain h | h := h
  · obtain ⟨i, hi, rfl⟩ := mem_take_iff_getElem.mp h
    have hdrop := drop_eq_getElem_cons (show i < free.length by omega)
    have hle := add_length_lt (hdrop ▸ hsorted.drop) fun q hq => hlt q (mem_of_mem_drop (hdrop ▸ hq))
    rw [length_drop] at hle
    omega
  · omega

theorem mem_portSet {fs : List Flow} {p : ℕ} : p ∈ portSet fs ↔ ∃ f ∈ fs, f.target.port = p := by
  unfold portSet
  rw [mem_insertionSort, mem_dedup, List.mem_map]

theorem sorted_portSet (fs : List Flow) : (portSet fs).Pairwise (· < ·) := by
  have hsorted := pairwise_insertionSort (· ≤ ·) (fs.map fun f => f.target.port).dedup
  have hnd := (perm_insertionSort (· ≤ ·) (fs.map fun f => f.target.port).dedup).symm.nodup
    (nodup_dedup _)
  exact hsorted.imp₂ (fun _ _ hle hne => lt_of_le_of_ne hle hne) hnd

/-- A list of distinct numbers is a list of all numbers below its length iff none is too large. -/
theorem perm_range_iff {l : List ℕ} (hnd : l.Nodup) {n : ℕ} (hlen : l.length = n) :
    l.Perm (range n) ↔ ∀ x ∈ l, x < n := by
  constructor
  · intro hperm x hx
    exact mem_range.mp (hperm.mem_iff.mp hx)
  · intro hlt
    have hsubset : l ⊆ range n := fun x hx => mem_range.mpr (hlt x hx)
    apply (hnd.subperm hsubset).perm_of_length_le
    rw [length_range, hlen]

section NewPorts

variable {free rest : List ℕ} {n m : ℕ} (hsorted : free.Pairwise (· < ·))
  (hperm : (free ++ rest).Perm (range n))

include hperm

theorem free_lt : ∀ p ∈ free, p < rest.length + free.length := by
  intro p hp
  have hlen := hperm.length_eq
  rw [length_append, length_range] at hlen
  have := mem_range.mp (hperm.mem_iff.mp (mem_append_left rest hp))
  omega

/-- The new ports are not in use. -/
theorem newPorts_not_mem {x : ℕ} (hx : x ∈ newPorts free rest.length m) : x ∉ rest := by
  intro hrest
  have hnd := nodup_append.mp (hperm.nodup_iff.mpr nodup_range)
  rcases mem_newPorts hx with hfree | hle
  · exact hnd.2.2 x hfree x hrest rfl
  · have hlt := mem_range.mp (hperm.mem_iff.mp (mem_append_right free hrest))
    have hlen := hperm.length_eq
    rw [length_append, length_range] at hlen
    omega

theorem nodup_rest_newPorts : (rest ++ newPorts free rest.length m).Nodup := by
  have hnd := nodup_append.mp (hperm.nodup_iff.mpr nodup_range)
  refine nodup_append.mpr ⟨hnd.2.1, nodup_newPorts hnd.1 (free_lt hperm), ?_⟩
  rintro x hx y hy rfl
  exact newPorts_not_mem hperm hy hx

include hsorted

/-- The ports have no gap iff all ports from their number on have become free. -/
theorem rest_newPorts_perm_iff : (rest ++ newPorts free rest.length m).Perm (range (rest.length + m)) ↔
    ∀ i, rest.length + m ≤ i → i < n → i ∈ free := by
  rw [perm_range_iff (nodup_rest_newPorts hperm) (by simp)]
  constructor
  · intro hlt i hle hi
    rcases mem_append.mp (hperm.mem_iff.mpr (mem_range.mpr hi)) with hfree | hrest
    · exact hfree
    · have := hlt i (mem_append_left _ hrest)
      omega
  · intro hfree x hx
    rcases mem_append.mp hx with hrest | hnew
    · by_contra hge
      have hxn := mem_range.mp (hperm.mem_iff.mp (mem_append_right free hrest))
      have hnd := nodup_append.mp (hperm.nodup_iff.mpr nodup_range)
      exact hnd.2.2 x (hfree x (by omega) hxn) x hrest rfl
    · exact newPorts_lt hsorted (free_lt hperm) hnew

end NewPorts

/-! ### Consistent ports -/

/-- The target ports of the in-flows and the input ports of the inner DAG are `0`, `1`, … up to the number of inputs,
    each once, and each input is a lookup of its own. -/
structure PortsConsistent (dag : Plan I) (v : ℕ) (inner : OpDag I) : Prop where
  flows : ((dag.graph.inFlows v).map fun f => f.target.port).Perm
    (range (dag.op v).operator.cls.numInPorts)
  inputs : (inner.inputs.entries.map Prod.fst).Perm (range (dag.op v).operator.cls.numInPorts)
  lookups : ∀ e ∈ inner.inputs.entries, (inner.op e.2.op).operator.cls = .parameterLookup
  distinct : (inner.inputs.entries.map fun e => e.2.op).Nodup

section

variable {dag : Plan I} {v : ℕ} {inner : OpDag I} (h : PortsConsistent dag v inner)

include h

theorem PortsConsistent.nodup_flows : ((dag.graph.inFlows v).map fun f => f.target.port).Nodup :=
  h.flows.nodup_iff.mpr nodup_range

theorem PortsConsistent.nodup_inputs : (inner.inputs.entries.map Prod.fst).Nodup :=
  h.inputs.nodup_iff.mpr nodup_range

end

variable (dag : Plan I)

/-- The ports of all parallel operators are consistent. -/
def AllPortsConsistent : Prop :=
  ∀ v ∈ dag.operators, isParallel dag v = true → ∃ inner, (dag.op v).innerDag = some inner ∧
    PortsConsistent dag v inner

/-- The operators of the plan and of the inner DAGs are distinct objects, and the inputs of an inner DAG are among its
    operators. -/
structure DistinctOperators (dag : Plan I) : Prop where
  graph : OuterGraph dag
  nodup : ∀ v ∈ dag.operators, ∀ inner ∈ (dag.op v).innerDag, inner.operators.Nodup
  closed : ∀ v ∈ dag.operators, ∀ inner ∈ (dag.op v).innerDag, ∀ e ∈ inner.inputs.entries, e.2.op ∈ inner.operators
  disjoint : ∀ u ∈ dag.operators, ∀ v ∈ dag.operators, u ≠ v → ∀ inner ∈ (dag.op u).innerDag,
    ∀ inner' ∈ (dag.op v).innerDag, inner.operators.Disjoint inner'.operators
  separate : ∀ v ∈ dag.operators, ∀ inner ∈ (dag.op v).innerDag, inner.operators.Disjoint dag.operators

/-- A port of the outer plan feeds a lookup of the workers `v`. -/
def Feeds (v : ℕ) (source : FlowTip) (lookup : ℕ) : Prop :=
  ∃ inner ∈ (dag.op v).innerDag, ∃ f ∈ dag.graph.inFlows v, f.source = source ∧
    ∃ e ∈ inner.inputs.entries, e.1 = f.target.port ∧ e.2.op = lookup

variable (pop other : ℕ)

/-- All ports of `pop` that are too large after the merge become free with it. -/
def FillsPorts : Prop :=
  ∀ i, (dag.op pop).operator.cls.numInPorts + (dag.op other).operator.cls.numInPorts -
      (inbetweenFlows dag pop other).length ≤ i → i < (dag.op pop).operator.cls.numInPorts →
    ∃ f ∈ inbetweenFlows dag pop other, f.target.port = i

/-- A step that changes the workers of one operator only. -/
structure WorkersChanged (dag dag' : Plan I) (pop : ℕ) (inner' : OpDag I) : Prop where
  operators : ∀ u ∈ dag'.operators, u ∈ dag.operators
  op : ∀ u ≠ pop, dag'.op u = dag.op u
  innerDag : (dag'.op pop).innerDag = some inner'

namespace WorkersChanged

variable {dag dag' : Plan I} {pop : ℕ} {inner' : OpDag I}
    (h : WorkersChanged dag dag' pop inner')

include h

/-- An inner DAG is the new one, or an old one of another operator. -/
theorem cases {v : ℕ} {inner : OpDag I} (hv : v ∈ dag'.operators) (hinner : inner ∈ (dag'.op v).innerDag) :
    v = pop ∧ inner = inner' ∨ v ≠ pop ∧ v ∈ dag.operators ∧ inner ∈ (dag.op v).innerDag := by
  by_cases hvp : v = pop
  · subst hvp
    exact .inl ⟨rfl, (some.inj (h.innerDag.symm.trans hinner)).symm⟩
  · exact .inr ⟨hvp, h.operators v hv, h.op v hvp ▸ hinner⟩

theorem distinctOperators (hdag : DistinctOperators dag) (hgraph : OuterGraph dag') (hnd : inner'.operators.Nodup)
    (hclosed : ∀ e ∈ inner'.inputs.entries, e.2.op ∈ inner'.operators)
    (hnew : ∀ x ∈ inner'.operators, x ∉ dag'.operators ∧
      ∀ u ∈ dag'.operators, u ≠ pop → ∀ inner ∈ (dag.op u).innerDag, x ∉ inner.operators) :
    DistinctOperators dag' := by
  refine ⟨hgraph, fun v hv inner hinner => ?_, fun v hv inner hinner => ?_,
    fun u hu v hv huv inner1 hinner1 inner2 hinner2 x hx hx' => ?_, fun v hv inner hinner x hx hx' => ?_⟩
  · obtain ⟨-, rfl⟩ | ⟨-, hv, hinner⟩ := h.cases hv hinner
    · exact hnd
    · exact hdag.nodup v hv inner hinner
  · obtain ⟨-, rfl⟩ | ⟨-, hv, hinner⟩ := h.cases hv hinner
    · exact hclosed
    · exact hdag.closed v hv inner hinner
  · obtain ⟨rfl, rfl⟩ | ⟨hup, hu', hinner1⟩ := h.cases hu hinner1
    · exact (hnew x hx).2 v hv huv.symm inner2 (h.op v huv.symm ▸ hinner2) hx'
    · obtain ⟨-, rfl⟩ | ⟨-, hv, hinner2⟩ := h.cases hv hinner2
      · exact (hnew x hx').2 u hu hup inner1 hinner1 hx
      · exact hdag.disjoint u hu' v hv huv inner1 hinner1 inner2 hinner2 hx hx'
  · obtain ⟨-, rfl⟩ | ⟨-, hv, hinner⟩ := h.cases hv hinner
    · exact (hnew x hx).1 hx'
    · exact hdag.separate v hv inner hinner hx (h.operators x hx')

theorem allPortsConsistent_iff (hall : AllPortsConsistent dag) (hpop : pop ∈ dag'.operators)
    (hpar : isParallel dag' pop = true) (hkept : ∀ u ∈ dag'.operators, u ≠ pop → ∀ inner,
      PortsConsistent dag u inner → PortsConsistent dag' u inner) :
    AllPortsConsistent dag' ↔ PortsConsistent dag' pop inner' := by
  constructor
  · intro hall'
    obtain ⟨inner, hinner, hports⟩ := hall' pop hpop hpar
    obtain rfl := some.inj (h.innerDag.symm.trans hinner)
    exact hports
  · intro hports u hu hpar
    by_cases hup : u = pop
    · subst hup
      exact ⟨inner', h.innerDag, hports⟩
    · rw [isParallel, h.op u hup] at hpar
      obtain ⟨inner, hinner, hports⟩ := hall u (h.operators u hu) hpar
      exact ⟨inner, by rw [h.op u hup]; exact hinner, hkept u hu hup inner hports⟩

end WorkersChanged

/-! ### The ports of a merged operator -/

/-- The flows in between are in-flows. -/
theorem inbetweenFlows_eq : inbetweenFlows dag pop other =
    (dag.graph.inFlows pop).filter fun f => f.source.op = other := by
  unfold inbetweenFlows Dag.inFlows Dag.outFlows
  rw [List.filter_filter, List.filter_filter]
  exact filter_congr fun f _ => Bool.and_comm _ _

/-- The in-flows that come from elsewhere. -/
def outsideFlows : List Flow :=
  (dag.graph.inFlows pop).filter fun f => f.source.op ≠ other

theorem inFlows_perm :
    (inbetweenFlows dag pop other ++ outsideFlows dag pop other).Perm (dag.graph.inFlows pop) := by
  rw [inbetweenFlows_eq, outsideFlows]
  refine List.Perm.trans (List.Perm.of_eq ?_)
    (filter_append_perm (fun f : Flow => decide (f.source.op = other)) _)
  simp

/-- The ports of the in-flows that come from elsewhere. -/
def outsidePorts : List ℕ := (outsideFlows dag pop other).map fun f => f.target.port

/-- The ports that are given to the inputs of the absorbed operator. -/
def mergedPorts : List ℕ :=
  newPorts (portSet (inbetweenFlows dag pop other)) (outsidePorts dag pop other).length
    (dag.graph.inFlows other).length

theorem length_mergedPorts : (mergedPorts dag pop other).length = (dag.graph.inFlows other).length :=
  length_newPorts _ _ _

section Merge

variable {dag dag' : Plan I} {pop other : ℕ} {inner otherInner : OpDag I}

section

variable (h : PortsConsistent dag pop inner)

include h

/-- The freed ports and the others are all ports. -/
theorem PortsConsistent.ports_perm (other : ℕ) :
    (portSet (inbetweenFlows dag pop other) ++ outsidePorts dag pop other).Perm
      (range (dag.op pop).operator.cls.numInPorts) := by
  have hports := ((inFlows_perm dag pop other).map fun f => f.target.port).trans h.flows
  rw [map_append] at hports
  have hnd := (nodup_append.mp (hports.nodup_iff.mpr nodup_range)).1
  have hset : (portSet (inbetweenFlows dag pop other)).Perm
      ((inbetweenFlows dag pop other).map fun f => f.target.port) := by
    unfold portSet
    rw [hnd.dedup]
    exact perm_insertionSort _ _
  exact (hset.append_right _).trans hports

theorem PortsConsistent.length_eq (other : ℕ) : (dag.op pop).operator.cls.numInPorts =
      (inbetweenFlows dag pop other).length + (outsidePorts dag pop other).length := by
  have hlen := h.flows.length_eq
  rw [length_map, length_range, ← (inFlows_perm dag pop other).length_eq, length_append] at hlen
  rw [← hlen, outsidePorts, length_map]

/-- The number of inputs after the merge. -/
theorem PortsConsistent.numInputs_eq (hother : PortsConsistent dag other otherInner) :
    (dag.op pop).operator.cls.numInPorts + (dag.op other).operator.cls.numInPorts -
      (inbetweenFlows dag pop other).length =
    (outsidePorts dag pop other).length + (dag.graph.inFlows other).length := by
  have hlen := hother.flows.length_eq
  rw [length_map, length_range] at hlen
  rw [h.length_eq other, hlen]
  omega

/-- The ports of the merged operator have no gaps iff the merge fills them. -/
theorem PortsConsistent.merged_perm_iff
    (hother : PortsConsistent dag other otherInner) : (outsidePorts dag pop other ++ mergedPorts dag pop other).Perm
      (range ((dag.op pop).operator.cls.numInPorts + (dag.op other).operator.cls.numInPorts -
        (inbetweenFlows dag pop other).length)) ↔ FillsPorts dag pop other := by
  rw [FillsPorts, h.numInputs_eq hother, mergedPorts, rest_newPorts_perm_iff (sorted_portSet _) (h.ports_perm other)]
  simp only [mem_portSet]

end

/-! ### The inputs of a merged operator -/

/-- Two parallel operators that are merged. -/
structure MergePair (dag : Plan I) (pop other : ℕ) (inner otherInner : OpDag I) : Prop where
  distinct : DistinctOperators dag
  flow : ParallelFlow dag other pop
  innerDag : (dag.op pop).innerDag = some inner
  otherInnerDag : (dag.op other).innerDag = some otherInner
  ports : PortsConsistent dag pop inner
  otherPorts : PortsConsistent dag other otherInner

section

variable (p : MergePair dag pop other inner otherInner)

include p

theorem MergePair.mem_operators : pop ∈ dag.operators ∧ other ∈ dag.operators :=
  (p.distinct.graph.closed _ p.flow.1).symm

theorem MergePair.ne : pop ≠ other := (p.distinct.graph.ne p.flow.1).symm

theorem MergePair.noLoop : ∀ f ∈ dag.flows, f.source.op = other → f.target.op ≠ other :=
  p.distinct.graph.noLoop

theorem MergePair.disjoint : inner.operators.Disjoint otherInner.operators :=
  p.distinct.disjoint pop p.mem_operators.1 other p.mem_operators.2 p.ne _ p.innerDag _ p.otherInnerDag

/-- The operators of both are distinct. -/
theorem MergePair.nodup : (inner.operators ++ otherInner.operators).Nodup :=
  nodup_append.mpr ⟨p.distinct.nodup pop p.mem_operators.1 _ p.innerDag,
    p.distinct.nodup other p.mem_operators.2 _ p.otherInnerDag, fun _ hx _ hy heq =>
    p.disjoint hx (heq ▸ hy)⟩

/-- The inputs of both are among their operators. -/
theorem MergePair.closed : (∀ e ∈ inner.inputs.entries, e.2.op ∈ inner.operators) ∧
    ∀ e ∈ otherInner.inputs.entries, e.2.op ∈ otherInner.operators :=
  ⟨p.distinct.closed pop p.mem_operators.1 _ p.innerDag,
    p.distinct.closed other p.mem_operators.2 _ p.otherInnerDag⟩

/-- The ports that stay and the new ones are distinct. -/
theorem MergePair.nodup_ports : (outsidePorts dag pop other ++ mergedPorts dag pop other).Nodup :=
  nodup_rest_newPorts (p.ports.ports_perm other)

end

theorem mem_movedInputs {inputs : List (ℕ × FlowTip)} {ports : List ℕ} {e : ℕ × FlowTip}
    (he : e ∈ movedInputs inputs ports) : ∃ e' ∈ inputs, e'.2.op = e.2.op := by
  obtain ⟨i, e', port, he', -, rfl⟩ := mem_zipWith.mp he
  exact ⟨e', mem_of_getElem? he', rfl⟩

variable {v : ℕ}

theorem mem_foldl_erase {tips : List FlowTip} {vs : List ℕ} (hv : v ∈ vs)
    (hne : ∀ tip ∈ tips, tip.op ≠ v) : v ∈ tips.foldl (fun vs tip => vs.erase tip.op) vs := by
  induction tips generalizing vs with
  | nil => exact hv
  | cons tip tips ih =>
    refine ih ?_ fun t ht => hne t (mem_cons_of_mem tip ht)
    exact (mem_erase_of_ne (hne tip mem_cons_self).symm).mpr hv

theorem foldl_erase_sublist (tips : List FlowTip) (vs : List ℕ) :
    (tips.foldl (fun vs tip => vs.erase tip.op) vs).Sublist vs := by
  induction tips generalizing vs with
  | nil => exact List.Sublist.refl vs
  | cons tip tips ih => exact (ih (vs.erase tip.op)).trans erase_sublist

/-- The input is not one of those that flows in between lead to. -/
def StaysInput (dag : Plan I) (pop other : ℕ) (e : ℕ × FlowTip) : Prop :=
  ∀ f ∈ inbetweenFlows dag pop other, f.target.port ≠ e.1

instance (dag : Plan I) (pop other : ℕ) (e : ℕ × FlowTip) : Decidable (StaysInput dag pop other e) := by
  unfold StaysInput
  infer_instance

/-- The inputs that stay are at the ports of the in-flows from elsewhere. -/
theorem PortsConsistent.stays_perm (h : PortsConsistent dag pop inner) (other : ℕ) :
    ((inner.inputs.entries.filter (StaysInput dag pop other ·)).map Prod.fst).Perm (outsidePorts dag pop other) := by
  have hports := h.ports_perm other
  have hnd := nodup_append.mp (hports.nodup_iff.mpr nodup_range)
  have hfilt := (h.inputs.trans hports.symm).filter
    fun p => decide (∀ f ∈ inbetweenFlows dag pop other, f.target.port ≠ p)
  rw [List.filter_map, filter_append] at hfilt
  have hfreed : (portSet (inbetweenFlows dag pop other)).filter
      (fun p => decide (∀ f ∈ inbetweenFlows dag pop other, f.target.port ≠ p)) = [] := by
    apply filter_eq_nil_iff.mpr
    intro p hp hstays
    obtain ⟨f, hf, hport⟩ := mem_portSet.mp hp
    exact of_decide_eq_true hstays f hf hport
  have hrest : (outsidePorts dag pop other).filter
      (fun p => decide (∀ f ∈ inbetweenFlows dag pop other, f.target.port ≠ p)) = outsidePorts dag pop other := by
    apply filter_eq_self.mpr
    intro p hp
    refine decide_eq_true fun f hf hport => ?_
    exact hnd.2.2 p (mem_portSet.mpr ⟨f, hf, hport⟩) p hp rfl
  rw [hfreed, hrest, nil_append] at hfilt
  exact hfilt

/-- What a merge does to the ports: the in-flows and the inputs of the absorbed operator get the same new ports. -/
structure PortsMerged (dag dag' : Plan I) (pop other : ℕ) (inner otherInner inner' : OpDag I) : Prop where
  merged : Merged dag dag' pop other
  popOp : dag'.op pop = mergedVertex dag pop other inner'
  flows : ∃ outPorts, outPorts.length = (otherOutFlows dag pop other).length ∧
    dag'.flows.Perm (mergedFlows dag pop other (mergedPorts dag pop other) outPorts)
  inputs : ∃ inputs, List.Forall₂ (fun f e => e ∈ otherInner.inputs.entries ∧ e.1 = f.target.port)
      (dag.graph.inFlows other) inputs ∧
    inner'.inputs.entries.Perm (inner.inputs.entries.filter (StaysInput dag pop other ·) ++
      movedInputs inputs (mergedPorts dag pop other))
  old : ∀ v ∈ inner.operators, inner'.op v = inner.op v
  new : ∀ v ∈ otherInner.operators, PortedDag.SameButId (otherInner.op v) (inner'.op v)
  operators : inner'.operators.Sublist (inner.operators ++ otherInner.operators)
  closed : ∀ e ∈ inner'.inputs.entries, e.2.op ∈ inner'.operators

section

variable (run : MergeRun dag pop other) (p : MergePair dag pop other run.inner run.otherInner)

include p

theorem MergeRun.moved_eq : Moved run.inner run.otherInner run.moved :=
  moveInner_eq_some (p.distinct.nodup other p.mem_operators.2 _ p.otherInnerDag) run.moveInner

/-- The in-flows of the absorbed operator are moved to ports that are not in use, together with their lookups. -/
theorem MergeRun.inputsMoved :
    run.inputs.dag.flows.Perm (keptFlows dag other ++ (inbetweenFlows dag pop other ++ otherOutFlows dag pop other) ++
        ([] ++ movedInFlows pop (dag.graph.inFlows other) (mergedPorts dag pop other))) ∧
      run.inputs.inner = { run.connected with inputs := run.inputs.inner.inputs } ∧
      ∃ inputs, List.Forall₂ (fun (f : Flow) e => e ∈ run.otherInner.inputs.entries ∧ e.1 = f.target.port ∧
          e.2.op ∈ run.connected.operators) (dag.graph.inFlows other) inputs ∧
        run.inputs.inner.inputs.entries.Perm (run.inner.inputs.entries.filter (StaysInput dag pop other ·) ++
          movedInputs inputs (mergedPorts dag pop other)) := by
  obtain ⟨-, -, hents, -⟩ := foldlM_connectOutput run.connectOutput
  rw [(run.moved_eq p).inputs] at hents
  have hents' : run.connected.inputs.entries =
      run.inner.inputs.entries.filter (StaysInput dag pop other ·) := hents
  -- the new ports are those of `mergedPorts`, and not in use
  have hkeys := p.ports.stays_perm other
  rw [← hents'] at hkeys
  have hlen : run.connected.inputs.entries.length = (outsidePorts dag pop other).length := by
    rw [← hkeys.length_eq, length_map]
  obtain ⟨_, inputs, -, -, hflows, hinner, hins, hnew⟩ := foldlM_connectInput _ [] run.connectInput
    (flows_perm_inFlows pop p.noLoop)
  obtain ⟨rfl, hperm⟩ := hnew (mergedPorts dag pop other) (by rw [mergedPorts, hlen])
    ((hkeys.append_right _).nodup_iff.mpr p.nodup_ports)
  rw [hents'] at hperm
  exact ⟨hflows, hinner, inputs, hins, hperm⟩

theorem MergeRun.portsMerged (hrun : run.plan.removeOperator other = some dag') :
    PortsMerged dag dag' pop other run.inner run.otherInner run.consumers.2 := by
  have hmoved := run.moved_eq p
  obtain ⟨hop, -, -, tips, htips, hops⟩ := foldlM_connectOutput run.connectOutput
  rw [hmoved.inputs] at htips
  obtain ⟨hflows, hinsInner, inputs, hmovedIns, hins⟩ := run.inputsMoved p
  obtain ⟨outPorts, -, hout, -, hflows', hconsumers, -⟩ := run.flows_perm hflows
  have hmerged := run.merged hrun p.noLoop
  obtain ⟨-, rfl⟩ := PortedDag.removeOperator_eq_some.mp hrun
  have hop' : run.consumers.2.op = run.moved.op := by rw [hconsumers, hinsInner, hop]
  have hops' : run.consumers.2.operators = run.connected.operators := by rw [hconsumers, hinsInner]
  have hins' : run.consumers.2.inputs.entries.Perm (run.inner.inputs.entries.filter (StaysInput dag pop other ·) ++
      movedInputs inputs (mergedPorts dag pop other)) := by
    rw [hconsumers]
    exact hins
  refine ⟨hmerged, op_setOp_self _, ⟨outPorts, hout, hflows'⟩, ⟨inputs, ?_, hins'⟩,
    fun v hv => ?_, fun v hv => ?_, ?_, fun e he => ?_⟩
  · exact hmovedIns.imp fun f e ⟨he, hport, _⟩ => ⟨he, hport⟩
  · rw [hop', hmoved.old v fun hv' => p.disjoint hv hv']
  · rw [hop']
    exact hmoved.new v hv
  · rw [hops', hops, ← hmoved.operators]
    exact foldl_erase_sublist tips _
  · rw [hops']
    rcases mem_append.mp (hins'.mem_iff.mp he) with hstays | hnew
    · -- a lookup that stays is none of those that are removed
      obtain ⟨hmem, hstays⟩ := mem_filter.mp hstays
      have hstays := of_decide_eq_true hstays
      rw [hops]
      refine mem_foldl_erase ?_ fun tip htip hsame => ?_
      · rw [hmoved.operators]
        exact mem_append_left _ (p.closed.1 e hmem)
      · obtain ⟨f, hf, htip⟩ := exists_left_of_mem htips htip
        have heq := inj_on_of_nodup_map p.ports.distinct htip hmem hsame
        exact hstays f hf (congrArg Prod.fst heq)
    · obtain ⟨e', he', hop⟩ := mem_movedInputs hnew
      obtain ⟨f, -, -, -, hmem⟩ := exists_left_of_mem hmovedIns he'
      exact hop ▸ hmem

end

/-- The ports at which flows with these targets reach an operator. -/
def portsAt (v : ℕ) (targets : List FlowTip) : List ℕ :=
  (targets.filter fun tip => tip.op = v).map fun tip => tip.port

theorem inFlows_ports (dag : Plan I) (v : ℕ) :
    (dag.graph.inFlows v).map (fun f => f.target.port) = portsAt v (dag.flows.map Flow.target) := by
  unfold portsAt
  rw [List.filter_map, List.map_map]
  rfl

theorem portsAt_perm {targets targets' : List FlowTip} (h : targets.Perm targets') (v : ℕ) :
    (portsAt v targets).Perm (portsAt v targets') := (h.filter _).map _

theorem portsAt_append (v : ℕ) (targets targets' : List FlowTip) :
    portsAt v (targets ++ targets') = portsAt v targets ++ portsAt v targets' := by
  unfold portsAt
  rw [filter_append, map_append]

theorem portsAt_of_ne {fs : List Flow} (h : ∀ f ∈ fs, f.target.op ≠ v) : portsAt v (fs.map Flow.target) = [] := by
  rw [portsAt, map_eq_nil_iff, filter_eq_nil_iff]
  intro tip htip hv
  obtain ⟨f, hf, rfl⟩ := mem_map.mp htip
  exact h f hf (of_decide_eq_true hv)

/-- The ports at which the flows reach an operator after a merge. -/
theorem inFlows_ports_perm {inPorts outPorts : List ℕ} (hin : inPorts.length = (dag.graph.inFlows other).length)
    (hout : outPorts.length = (otherOutFlows dag pop other).length)
    (hflows : dag'.flows.Perm (mergedFlows dag pop other inPorts outPorts)) (v : ℕ) :
    ((dag'.graph.inFlows v).map fun f => f.target.port).Perm
      (portsAt v ((keptFlows dag other).map Flow.target) ++ (portsAt v (inPorts.map (FlowTip.mk pop)) ++
        portsAt v ((otherOutFlows dag pop other).map Flow.target))) := by
  have hmovedIn : (movedInFlows pop (dag.graph.inFlows other) inPorts).map Flow.target =
      inPorts.map (FlowTip.mk pop) := map_zipWith_right (fun _ _ => rfl) hin.symm
  have hmovedOut : (movedOutFlows pop (otherOutFlows dag pop other) outPorts).map Flow.target =
      (otherOutFlows dag pop other).map Flow.target := map_zipWith_left (fun _ _ => rfl) hout.symm
  have hperm := portsAt_perm (hflows.map Flow.target) v
  rwa [mergedFlows, map_append, map_append, hmovedIn, hmovedOut, portsAt_append, portsAt_append,
    ← inFlows_ports] at hperm

section

variable {inner' : OpDag I} (h : PortsMerged dag dag' pop other inner otherInner inner')
  (p : MergePair dag pop other inner otherInner)

include h

theorem PortsMerged.innerDag : (dag'.op pop).innerDag = some inner' := by
  rw [h.popOp]
  rfl

include p

theorem PortsMerged.mem_operators (hv : v ∈ dag'.operators) : v ∈ dag.operators ∧ v ≠ other := by
  rw [h.merged.operators, p.distinct.graph.nodup.mem_erase_iff] at hv
  exact hv.symm

theorem PortsMerged.changed : WorkersChanged dag dag' pop inner' :=
  ⟨fun _ hv => (h.mem_operators p hv).1, h.merged.op, h.innerDag⟩

/-- The ports of the in-flows of the merged operator. -/
theorem PortsMerged.flowPorts_perm : ((dag'.graph.inFlows pop).map fun f => f.target.port).Perm
      (outsidePorts dag pop other ++ mergedPorts dag pop other) := by
  obtain ⟨outPorts, hout, hflows⟩ := h.flows
  have hkept : portsAt pop ((keptFlows dag other).map Flow.target) = outsidePorts dag pop other := by
    unfold portsAt outsidePorts keptFlows outsideFlows Dag.inFlows PortedDag.graph
    rw [List.filter_map, List.map_map, List.filter_filter, List.filter_filter]
    refine congrArg (map _) (filter_congr fun f _ => ?_)
    by_cases htgt : f.target.op = pop <;> simp [htgt, p.ne]
  have hin : portsAt pop ((mergedPorts dag pop other).map (FlowTip.mk pop)) = mergedPorts dag pop other := by
    simp [portsAt, List.filter_map, Function.comp_def]
  have hnone : portsAt pop ((otherOutFlows dag pop other).map Flow.target) = [] :=
    portsAt_of_ne fun f hf => (mem_otherOutFlows.mp hf).2.2
  have hperm := inFlows_ports_perm (length_mergedPorts dag pop other) hout hflows pop
  rwa [hkept, hin, hnone, append_nil] at hperm

/-- The in-flows of the other operators keep their ports. -/
theorem PortsMerged.portsConsistent {inner1 : OpDag I} (hv : v ≠ pop) (hv' : v ≠ other)
    (hports : PortsConsistent dag v inner1) : PortsConsistent dag' v inner1 := by
  obtain ⟨outPorts, hout, hflows'⟩ := h.flows
  have hin : portsAt v ((dag.graph.inFlows other).map Flow.target) = [] := portsAt_of_ne fun f hf =>
    (Dag.mem_inFlows.mp hf).2.symm ▸ hv'.symm
  have hbetween : portsAt v ((inbetweenFlows dag pop other).map Flow.target) = [] :=
    portsAt_of_ne fun f hf => (mem_inbetweenFlows.mp hf).2.2.symm ▸ hv.symm
  have hnone : portsAt v ((mergedPorts dag pop other).map (FlowTip.mk pop)) = [] := by
    simp [portsAt, List.filter_map, Function.comp_def, hv.symm]
  have hperm := inFlows_ports_perm (length_mergedPorts dag pop other) hout hflows' v
  have hperm' := portsAt_perm ((flows_perm pop p.noLoop).map Flow.target) v
  rw [hnone, nil_append] at hperm
  simp only [map_append, portsAt_append, hin, hbetween, append_nil, nil_append, ← inFlows_ports] at hperm'
  refine ⟨?_, ?_, hports.lookups, hports.distinct⟩
  · rw [h.merged.op v hv]
    exact (hperm.trans hperm'.symm).trans hports.flows
  · rw [h.merged.op v hv]
    exact hports.inputs

/-- The ports of the inputs of the merged operator. -/
theorem PortsMerged.inputPorts_perm :
    (inner'.inputs.entries.map Prod.fst).Perm (outsidePorts dag pop other ++ mergedPorts dag pop other) := by
  obtain ⟨inputs, hmoved, hins⟩ := h.inputs
  have hnew : (movedInputs inputs (mergedPorts dag pop other)).map Prod.fst = mergedPorts dag pop other := by
    refine (map_zipWith_right (k := id) ?_ ?_).trans (map_id _)
    · exact fun _ _ => rfl
    · rw [length_mergedPorts, hmoved.length_eq]
  have hperm := hins.map Prod.fst
  rw [map_append, hnew] at hperm
  exact hperm.trans ((p.ports.stays_perm other).append_right _)

/-- All inputs of the absorbed operator are moved. -/
theorem PortsMerged.exists_inputs :
    ∃ inputs, List.Forall₂ (fun f e => e ∈ otherInner.inputs.entries ∧ e.1 = f.target.port)
        (dag.graph.inFlows other) inputs ∧ inputs.Perm otherInner.inputs.entries ∧
      inner'.inputs.entries.Perm (inner.inputs.entries.filter (StaysInput dag pop other ·) ++
        movedInputs inputs (mergedPorts dag pop other)) := by
  obtain ⟨inputs, hmoved, hins⟩ := h.inputs
  refine ⟨inputs, hmoved, ?_, hins⟩
  have hkeys : inputs.map Prod.fst = (dag.graph.inFlows other).map fun f => f.target.port := by
    apply forall₂_eq_eq_eq ▸ forall₂_map_left_iff.mpr (forall₂_map_right_iff.mpr ?_)
    exact hmoved.flip.imp fun e f hef => hef.2
  have hperm : (inputs.map Prod.fst).Perm (otherInner.inputs.entries.map Prod.fst) := by
    rw [hkeys]
    exact p.otherPorts.flows.trans p.otherPorts.inputs.symm
  -- the ports are distinct, so the inputs are, and there are as many as the operator has
  have hnd : inputs.Nodup := List.Nodup.of_map Prod.fst (hperm.nodup_iff.mpr p.otherPorts.nodup_inputs)
  have hsubset : inputs ⊆ otherInner.inputs.entries := fun e he =>
    let ⟨_, _, hmem, _⟩ := exists_left_of_mem hmoved he
    hmem
  apply (hnd.subperm hsubset).perm_of_length_le
  simpa using hperm.length_eq.ge

/-- The merged operator has consistent ports iff the merge fills them. -/
theorem PortsMerged.consistent_iff : PortsConsistent dag' pop inner' ↔ FillsPorts dag pop other := by
  have hnumIns : (dag'.op pop).operator.cls.numInPorts = (dag.op pop).operator.cls.numInPorts +
      (dag.op other).operator.cls.numInPorts - (inbetweenFlows dag pop other).length := by
    rw [h.popOp]
    rfl
  rw [← p.ports.merged_perm_iff p.otherPorts, ← hnumIns]
  constructor
  · intro hconsistent
    exact (h.flowPorts_perm p).symm.trans hconsistent.flows
  · intro hperm
    obtain ⟨inputs, hmoved, hall, hins⟩ := h.exists_inputs p
    refine ⟨(h.flowPorts_perm p).trans hperm, (h.inputPorts_perm p).trans hperm, fun e he => ?_, ?_⟩
    · rcases mem_append.mp (hins.mem_iff.mp he) with hstays | hnew
      · have hmem := mem_of_mem_filter hstays
        rw [h.old _ (p.closed.1 e hmem)]
        exact p.ports.lookups e hmem
      · obtain ⟨e', he', hop⟩ := mem_movedInputs hnew
        have hmem := hall.mem_iff.mp he'
        rw [← hop, (h.new _ (p.closed.2 e' hmem)).cls]
        exact p.otherPorts.lookups e' hmem
    · -- the lookups of both operators are distinct, and they have none in common
      have hlookups : (movedInputs inputs (mergedPorts dag pop other)).map (fun e => e.2.op) =
          inputs.map fun e => e.2.op := by
        refine map_zipWith_left ?_ ?_
        · exact fun _ _ => rfl
        · rw [length_mergedPorts, ← hmoved.length_eq]
      refine (hins.map fun e => e.2.op).nodup_iff.mpr ?_
      rw [map_append, hlookups]
      refine nodup_append.mpr ⟨p.ports.distinct.sublist (filter_sublist.map _),
        (hall.map _).nodup_iff.mpr p.otherPorts.distinct, ?_⟩
      rintro x hx y hy rfl
      obtain ⟨e, he, rfl⟩ := mem_map.mp hx
      obtain ⟨e', he', heq⟩ := mem_map.mp hy
      refine p.disjoint (p.closed.1 e (mem_of_mem_filter he)) ?_
      rw [← heq]
      exact p.closed.2 e' (hall.mem_iff.mp he')

/-- A flow to `pop` from elsewhere leads to the same lookups as before. -/
theorem PortsMerged.lookups_outside {f : Flow} (hf : f ∈ dag.graph.inFlows pop) (hsrc : f.source.op ≠ other)
    (P : ℕ → Prop) : (∃ e ∈ inner'.inputs.entries, e.1 = f.target.port ∧ P e.2.op) ↔
      ∃ e ∈ inner.inputs.entries, e.1 = f.target.port ∧ P e.2.op := by
  obtain ⟨inputs, -, hins⟩ := h.inputs
  constructor
  · rintro ⟨e, he, hport, hlook⟩
    rcases mem_append.mp (hins.mem_iff.mp he) with he | he
    · exact ⟨e, mem_of_mem_filter he, hport, hlook⟩
    · -- the port is not one of the new ones
      obtain ⟨i, e', port, -, hnew, rfl⟩ := mem_zipWith.mp he
      have houtside : f.target.port ∈ outsidePorts dag pop other :=
        mem_map_of_mem (mem_filter.mpr ⟨hf, decide_eq_true hsrc⟩)
      exact absurd hport.symm ((nodup_append.mp p.nodup_ports).2.2 _ houtside port (mem_of_getElem? hnew))
  · rintro ⟨e, he, hport, hlook⟩
    refine ⟨e, hins.mem_iff.mpr (mem_append_left _ (mem_filter.mpr ⟨he, decide_eq_true ?_⟩)), hport, hlook⟩
    -- a flow in between has another source, so it has another port
    intro g hg hsame
    rw [inbetweenFlows_eq] at hg
    obtain ⟨hg, hsrc'⟩ := mem_filter.mp hg
    have heq := inj_on_of_nodup_map p.ports.nodup_flows hg hf (hsame.trans hport)
    exact hsrc (heq ▸ of_decide_eq_true hsrc')

/-- A flow to the absorbed operator leads to the same lookups as before. -/
theorem PortsMerged.lookups_moved {i port : ℕ} {f : Flow} (hf : (dag.graph.inFlows other)[i]? = some f)
    (hport : (mergedPorts dag pop other)[i]? = some port) (P : ℕ → Prop) :
    (∃ e ∈ inner'.inputs.entries, e.1 = port ∧ P e.2.op) ↔
      ∃ e ∈ otherInner.inputs.entries, e.1 = f.target.port ∧ P e.2.op := by
  obtain ⟨inputs, hmoved, hins⟩ := h.inputs
  obtain ⟨e, he, hmem, hkey⟩ := exists_getElem?_of_forall₂ hmoved hf
  have hnd := nodup_append.mp p.nodup_ports
  constructor
  · rintro ⟨x, hx, rfl, hlook⟩
    rcases mem_append.mp (hins.mem_iff.mp hx) with hx | hx
    · have houtside := (p.ports.stays_perm other).mem_iff.mp (mem_map_of_mem hx)
      exact absurd rfl (hnd.2.2 x.1 houtside x.1 (mem_of_getElem? hport))
    · -- the ports are distinct, so it is the same input
      obtain ⟨j, e', port, he', hport', rfl⟩ := mem_zipWith.mp hx
      obtain rfl : i = j :=
        (getElem?_inj (List.getElem?_eq_some_iff.mp hport).1 hnd.2.1).mp (hport.trans hport'.symm)
      obtain rfl := some.inj (he.symm.trans he')
      exact ⟨e, hmem, hkey, hlook⟩
  · rintro ⟨x, hx, hkey', hlook⟩
    obtain rfl : x = e := inj_on_of_nodup_map p.otherPorts.nodup_inputs hx hmem (hkey'.trans hkey.symm)
    exact ⟨(port, ⟨x.2.op, 0⟩), hins.mem_iff.mpr (mem_append_right _
      (mem_zipWith.mpr ⟨i, x, port, he, hport, rfl⟩)), rfl, hlook⟩

/-- What fed a lookup of one of the two operators from outside feeds it afterwards. -/
theorem PortsMerged.feeds {source : FlowTip} {lookup : ℕ}
    (hfeeds : (source.op ≠ other ∧ Feeds dag pop source lookup) ∨ Feeds dag other source lookup) :
    Feeds dag' pop source lookup := by
  obtain ⟨outPorts, -, hflows⟩ := h.flows
  refine ⟨inner', h.innerDag, ?_⟩
  rcases hfeeds with ⟨hsrc, inner1, hinner1, f, hf, rfl, hlook⟩ | ⟨inner1, hinner1, f, hf, rfl, hlook⟩
  · obtain rfl := some.inj (p.innerDag.symm.trans hinner1)
    obtain ⟨hmem, htgt⟩ := Dag.mem_inFlows.mp hf
    have hkept := hflows.mem_iff.mpr (mem_mergedFlows.mpr (.inl ⟨hmem, hsrc, htgt ▸ p.ne⟩))
    exact ⟨f, Dag.mem_inFlows.mpr ⟨hkept, htgt⟩, rfl, (h.lookups_outside p hf hsrc (· = lookup)).mpr hlook⟩
  · obtain rfl := some.inj (p.otherInnerDag.symm.trans hinner1)
    obtain ⟨i, hi⟩ := mem_iff_getElem?.mp hf
    obtain ⟨port, hport⟩ := exists_getElem?_of_length (length_mergedPorts dag pop other) hi
    have hflow := hflows.mem_iff.mpr (mem_mergedFlows.mpr (.inr (.inl ⟨i, f, port, hi, hport, rfl⟩)))
    exact ⟨_, Dag.mem_inFlows.mpr ⟨hflow, rfl⟩, rfl, (h.lookups_moved p hi hport (· = lookup)).mpr hlook⟩

theorem PortsMerged.distinctOperators (hgraph : OuterGraph dag') : DistinctOperators dag' := by
  have hdag := p.distinct
  obtain ⟨hpop, hother⟩ := p.mem_operators
  refine (h.changed p).distinctOperators hdag hgraph (p.nodup.sublist h.operators) h.closed fun x hx =>
    ⟨fun hx' => ?_, fun u hu hup inner1 hinner1 hx' => ?_⟩
  · have hx' := (h.mem_operators p hx').1
    rcases mem_append.mp (h.operators.subset hx) with hx | hx
    · exact hdag.separate pop hpop _ p.innerDag hx hx'
    · exact hdag.separate other hother _ p.otherInnerDag hx hx'
  · obtain ⟨hu, huo⟩ := h.mem_operators p hu
    rcases mem_append.mp (h.operators.subset hx) with hx | hx
    · exact hdag.disjoint u hu pop hpop hup _ hinner1 _ p.innerDag hx' hx
    · exact hdag.disjoint u hu other hother huo _ hinner1 _ p.otherInnerDag hx' hx

end

/-- What a merge keeps: whatever feeds a lookup from outside, and all inputs that the flows in between do not lead
    to. -/
structure MergeKeeps (dag dag' : Plan I) (pop other : ℕ) : Prop where
  feeds : ∀ source lookup, (source.op ≠ other ∧ Feeds dag pop source lookup) ∨ Feeds dag other source lookup →
    Feeds dag' pop source lookup
  inputs : ∀ inner ∈ (dag.op pop).innerDag, ∀ otherInner ∈ (dag.op other).innerDag, ∃ inner' ∈ (dag'.op pop).innerDag,
      (∀ e ∈ inner.inputs.entries, StaysInput dag pop other e → e ∈ inner'.inputs.entries) ∧
      ∀ e ∈ otherInner.inputs.entries, ∃ port, (port, ⟨e.2.op, 0⟩) ∈ inner'.inputs.entries

theorem exists_mergePair (hdag : DistinctOperators dag) (hall : AllPortsConsistent dag)
    (hflow : ParallelFlow dag other pop) : ∃ inner otherInner, MergePair dag pop other inner otherInner := by
  obtain ⟨hother, hpop⟩ : other ∈ dag.operators ∧ pop ∈ dag.operators := hdag.graph.closed _ hflow.1
  obtain ⟨inner, hinner, hports⟩ := hall pop hpop hflow.2.2
  obtain ⟨otherInner, hotherInner, hotherPorts⟩ := hall other hother hflow.2.1
  exact ⟨inner, otherInner, hdag, hflow, hinner, hotherInner, hports, hotherPorts⟩

/-- **One merge.** -/
theorem merge_ports (hdag : DistinctOperators dag) (hall : AllPortsConsistent dag)
    (hflow : ParallelFlow dag other pop) (hgraph : OuterGraph dag') (h : mergeInto dag pop other = some dag') :
    (AllPortsConsistent dag' ↔ FillsPorts dag pop other) ∧ DistinctOperators dag' ∧
      MergeKeeps dag dag' pop other := by
  obtain ⟨inner, otherInner, p⟩ := exists_mergePair hdag hall hflow
  obtain ⟨run, hrun⟩ := mergeInto_eq_some.mp h
  obtain rfl : inner = run.inner := some.inj (p.innerDag.symm.trans run.innerDag)
  obtain rfl : otherInner = run.otherInner := some.inj (p.otherInnerDag.symm.trans run.otherInnerDag)
  have hmerged := run.portsMerged p hrun
  refine ⟨Iff.trans ?_ (hmerged.consistent_iff p), hmerged.distinctOperators p hgraph,
    fun source lookup hfeeds => hmerged.feeds p hfeeds, ?_⟩
  · refine (hmerged.changed p).allPortsConsistent_iff hall ?_ ?_ fun u hu hup inner1 => ?_
    · rw [hmerged.merged.operators]
      exact (mem_erase_of_ne p.ne).mpr p.mem_operators.1
    · rw [isParallel, hmerged.popOp]
      rfl
    · exact hmerged.portsConsistent p hup (hmerged.mem_operators p hu).2
  · intro inner1 hinner1 inner2 hinner2
    obtain rfl := some.inj (p.innerDag.symm.trans hinner1)
    obtain rfl := some.inj (p.otherInnerDag.symm.trans hinner2)
    obtain ⟨inputs, hmoved, hinsPerm, hins⟩ := hmerged.exists_inputs p
    refine ⟨_, hmerged.innerDag, fun e he hstays => ?_, fun e he => ?_⟩
    · exact hins.mem_iff.mpr (mem_append_left _ (mem_filter.mpr ⟨he, decide_eq_true hstays⟩))
    · obtain ⟨i, hi⟩ := mem_iff_getElem?.mp (hinsPerm.mem_iff.mpr he)
      obtain ⟨port, hport⟩ :=
        exists_getElem?_of_length ((length_mergedPorts dag pop other).trans hmoved.length_eq) hi
      exact ⟨port, hins.mem_iff.mpr (mem_append_right _ (mem_zipWith.mpr ⟨i, e, _, hi, hport, rfl⟩))⟩

end Merge

/-! ### Constants -/

/-- The constant `v` is broadcast to the workers by the operator `b` behind their lookup `tip`. -/
structure ReadsBroadcast (dag : Plan I) (v : ℕ) (f : Flow) (inner : OpDag I) (tip : FlowTip) (b : ℕ) :
    Prop where
  outFlow : dag.graph.outFlow v = some f
  parallel : isParallel dag f.target.op = true
  innerDag : (dag.op f.target.op).innerDag = some inner
  input : inner.input f.target.port = some tip
  successor : inner.graph.successor tip.op = some b
  broadcast : (inner.op b).operator.cls = .broadcast

/-- A constant that is moved into the workers was their last input. -/
def DropsLastPort (v : ℕ) : Prop :=
  ∀ f inner tip b, ReadsBroadcast dag v f inner tip b →
    f.target.port + 1 = (dag.op f.target.op).operator.cls.numInPorts

/-- What the step for a constant does to the ports. -/
structure Unbroadcast (dag dag' : Plan I) (v : ℕ) (f : Flow) (inner inner' : OpDag I) (tip : FlowTip)
    (b : ℕ) : Prop where
  mem : v ∈ dag.operators
  isolated : (dag.removeFlow f).Isolated v
  operators : dag'.operators = dag.operators.erase v
  flows : dag'.flows = dag.flows.erase f
  op : ∀ u ≠ f.target.op, dag'.op u = dag.op u
  numInputs : (dag'.op f.target.op).operator.cls.numInPorts = (dag.op f.target.op).operator.cls.numInPorts - 1
  parallel : isParallel dag' f.target.op = true
  innerDag : (dag'.op f.target.op).innerDag = some inner'
  innerOperators : inner'.operators = ((inner.operators ++ [v]).erase tip.op).erase b
  innerOp : ∀ u ≠ v, inner'.op u = inner.op u
  inputs : (inner.inputs.entries.map Prod.fst).Nodup →
    inner'.inputs.entries = inner.inputs.entries.filter fun e => e.2.op ≠ tip.op

section Unbroadcast

variable {dag dag' : Plan I} {v : ℕ}

/-- Inputs that are set in the order of their ports. -/
theorem foldlM_setInput {Op : Type} {es : List (ℕ × FlowTip)} {inner inner' : PortedDag Op}
    (h : es.foldlM (fun dag e => dag.setInput e.1 e.2) inner = some inner') :
    inner' = { inner with inputs := inner'.inputs } ∧ ((inner.inputs.entries ++ es).Pairwise (fun x y => x.1 < y.1) →
        inner'.inputs.entries = inner.inputs.entries ++ es) := by
  induction es generalizing inner with
  | nil =>
    cases h
    exact ⟨rfl, fun _ => (append_nil _).symm⟩
  | cons e es ih =>
    obtain ⟨inner1, hset, hrest⟩ := foldlM_cons_eq_some.mp h
    obtain ⟨-, rfl⟩ := PortedDag.setInput_eq_some.mp hset
    obtain ⟨hinner', hents⟩ := ih hrest
    refine ⟨by rw [hinner'], fun hsorted => ?_⟩
    have hlt : ∀ x ∈ inner.inputs.entries, x.1 < e.1 := fun x hx =>
      (pairwise_append.mp hsorted).2.2 x hx e mem_cons_self
    have hset : ((inner.inputs.erase e.1).emplace e.1 e.2).entries = inner.inputs.entries ++ [e] := by
      have herase : (inner.inputs.erase e.1).entries = inner.inputs.entries :=
        filter_eq_self.mpr fun x hx => decide_eq_true (hlt x hx).ne
      refine (emplaceList_of_le fun x hx => ?_).trans (by rw [herase])
      rw [herase] at hx
      exact (hlt x hx).le
    rw [hents (by rw [hset, append_assoc]; exact hsorted), hset, append_assoc]
    rfl

theorem unbroadcast_eq_some (h : unbroadcast dag v = some dag') :
    (dag' = dag ∧ ∀ f inner tip b, ¬ ReadsBroadcast dag v f inner tip b) ∨
      ∃ f inner inner' tip b, ReadsBroadcast dag v f inner tip b ∧ Unbroadcast dag dag' v f inner inner' tip b := by
  obtain ⟨f, hf, h⟩ := bind_eq_some_iff.mp h
  dsimp only at h
  split at h
  · next hpar =>
    obtain ⟨inner, hinner, h⟩ := bind_eq_some_iff.mp h
    obtain ⟨tip, htip, h⟩ := bind_eq_some_iff.mp h
    obtain ⟨_, hlook, h⟩ := bind_eq_some_iff.mp h
    obtain ⟨b, hb, h⟩ := bind_eq_some_iff.mp h
    split at h
    · next hbroadcast =>
      obtain ⟨outer, houter, h⟩ := bind_eq_some_iff.mp h
      obtain ⟨inner1, hins, h⟩ := bind_eq_some_iff.mp h
      obtain ⟨outFlow, houtFlow, h⟩ := bind_eq_some_iff.mp h
      obtain ⟨inFlow, hinFlow, h⟩ := bind_eq_some_iff.mp h
      obtain ⟨inner2, hinner2, h⟩ := bind_eq_some_iff.mp h
      obtain ⟨inner3, hinner3, h⟩ := bind_eq_some_iff.mp h
      obtain ⟨inner4, hinner4, h⟩ := bind_eq_some_iff.mp h
      cases h
      obtain ⟨⟨hmem, hisolated⟩, rfl⟩ := PortedDag.removeOperator_eq_some.mp houter
      obtain ⟨hinner1, hents⟩ := foldlM_setInput hins
      obtain ⟨-, rfl⟩ := PortedDag.removeOperator_eq_some.mp hinner2
      obtain ⟨-, rfl⟩ := PortedDag.removeOperator_eq_some.mp hinner3
      obtain ⟨-, rfl⟩ := PortedDag.addFlow_eq_some.mp hinner4
      refine .inr ⟨f, inner, _, tip, b, ⟨hf, hpar, hinner, htip, hb, hbroadcast⟩, hmem, hisolated, rfl, rfl,
        fun u hu => op_setOp_of_ne hu _, by rw [op_setOp_self]; rfl, by rw [isParallel, op_setOp_self]; rfl,
        by rw [op_setOp_self], ?_, ?_, ?_⟩
      · show (inner1.operators.erase tip.op).erase b = _
        rw [hinner1]
        rfl
      · intro u hu
        show inner1.op u = inner.op u
        rw [hinner1]
        exact Function.update_of_ne hu _ _
      · intro hnd
        refine (hents ?_).trans (nil_append _)
        -- the entries are in order, and their ports are distinct
        refine List.Pairwise.filter _ ?_
        exact (inner.inputs.sorted.and (pairwise_map.mp hnd)).imp fun hle => lt_of_le_of_ne hle.1 hle.2
    · next hnot =>
      cases h
      refine .inl ⟨rfl, fun f' inner' tip' b' hreads => hnot ?_⟩
      obtain rfl := some.inj (hf.symm.trans hreads.outFlow)
      obtain rfl := some.inj (hinner.symm.trans hreads.innerDag)
      obtain rfl := some.inj (htip.symm.trans hreads.input)
      obtain rfl := some.inj (hb.symm.trans hreads.successor)
      exact hreads.broadcast
  · next hnot =>
    cases h
    refine .inl ⟨rfl, fun f' inner' tip' b' hreads => hnot ?_⟩
    obtain rfl := some.inj (hf.symm.trans hreads.outFlow)
    exact hreads.parallel

section

variable {f : Flow} {inner inner' : OpDag I} {tip : FlowTip} {b : ℕ}

theorem ReadsBroadcast.mem_inFlows (hreads : ReadsBroadcast dag v f inner tip b) :
    f ∈ dag.graph.inFlows f.target.op := by
  have hmem : f ∈ dag.graph.outFlows v := Dag.single_eq_some.mp hreads.outFlow ▸ mem_singleton_self f
  exact Dag.mem_inFlows.mpr ⟨(Dag.mem_outFlows.mp hmem).1, rfl⟩

theorem ReadsBroadcast.mem_inputs (hreads : ReadsBroadcast dag v f inner tip b) :
    (f.target.port, tip) ∈ inner.inputs.entries := by
  rw [← MultiMap.mem_equalRange, PortedDag.input_eq_some.mp hreads.input]
  exact mem_singleton_self tip

/-- Without one of the numbers below `n`, the others are all numbers below `n - 1` iff it was the last. -/
theorem erase_range_perm_iff {ports : List ℕ} {n p : ℕ} (hports : ports.Perm (range n)) (hp : p < n) :
    (ports.erase p).Perm (range (n - 1)) ↔ p + 1 = n := by
  have hnd : ports.Nodup := hports.nodup_iff.mpr nodup_range
  have hlen : (ports.erase p).length = n - 1 := by
    rw [length_erase_of_mem (hports.mem_iff.mpr (mem_range.mpr hp)), hports.length_eq, length_range]
  rw [perm_range_iff (hnd.erase p) hlen]
  simp only [hnd.mem_erase_iff, hports.mem_iff, mem_range]
  constructor
  · intro hlt
    by_contra hne
    have := hlt (n - 1) ⟨by omega, by omega⟩
    omega
  · rintro rfl x ⟨hne, hx⟩
    omega

section

variable (h : Unbroadcast dag dag' v f inner inner' tip b) (hreads : ReadsBroadcast dag v f inner tip b)

include h

theorem Unbroadcast.mem_operators (hdag : DistinctOperators dag) {u : ℕ} (hu : u ∈ dag'.operators) :
    u ∈ dag.operators ∧ u ≠ v := by
  rw [h.operators, hdag.graph.nodup.mem_erase_iff] at hu
  exact hu.symm

theorem Unbroadcast.changed (hdag : DistinctOperators dag) : WorkersChanged dag dag' f.target.op inner' :=
  ⟨fun _ hu => (h.mem_operators hdag hu).1, h.op, h.innerDag⟩

/-- The flows to the workers without the one from the constant. -/
theorem Unbroadcast.inFlows_eq (u : ℕ) : dag'.graph.inFlows u = (dag.graph.inFlows u).erase f := by
  unfold Dag.inFlows PortedDag.graph
  rw [h.flows]
  exact erase_filter.symm

include hreads

/-- The inputs of the workers without the one for the constant. -/
theorem Unbroadcast.inputPorts (hports : PortsConsistent dag f.target.op inner) :
    inner'.inputs.entries.map Prod.fst = (inner.inputs.entries.map Prod.fst).erase f.target.port := by
  have hnd := hports.nodup_inputs
  rw [h.inputs hnd, hnd.erase_eq_filter, List.filter_map]
  congr 1
  refine filter_congr fun e he => ?_
  -- the lookup of the constant is the input at this port and at no other
  have hiff : e.2.op = tip.op ↔ e.1 = f.target.port := by
    constructor
    · intro hop
      exact congrArg Prod.fst (inj_on_of_nodup_map hports.distinct he hreads.mem_inputs hop)
    · intro hport
      have := inj_on_of_nodup_map hnd he hreads.mem_inputs hport
      exact congrArg (fun e => e.2.op) this
  rw [Bool.eq_iff_iff]
  simp [hiff]

section

variable (hdag : DistinctOperators dag) (hpop : f.target.op ∈ dag.operators)
    (hports : PortsConsistent dag f.target.op inner)

include hdag hpop hports

theorem Unbroadcast.consistent_iff : PortsConsistent dag' f.target.op inner' ↔
      f.target.port + 1 = (dag.op f.target.op).operator.cls.numInPorts := by
  have hport : f.target.port < (dag.op f.target.op).operator.cls.numInPorts :=
    mem_range.mp (hports.inputs.mem_iff.mp (mem_map_of_mem hreads.mem_inputs))
  have hnd := hports.nodup_inputs
  constructor
  · intro hports'
    apply (erase_range_perm_iff hports.inputs hport).mp
    rw [← h.inputPorts hreads hports, ← h.numInputs]
    exact hports'.inputs
  · intro hlast
    refine ⟨?_, ?_, fun e he => ?_, ?_⟩
    · rw [h.numInputs, h.inFlows_eq]
      refine List.Perm.trans ?_ ((erase_range_perm_iff hports.flows hport).mpr hlast)
      -- the ports of the in-flows are distinct, so removing the flow removes its port
      have hperm := (perm_cons_erase hreads.mem_inFlows).map fun f => f.target.port
      rw [map_cons] at hperm
      have := (hperm.symm.erase f.target.port)
      rwa [erase_cons_head] at this
    · rw [h.numInputs, h.inputPorts hreads hports]
      exact (erase_range_perm_iff hports.inputs hport).mpr hlast
    · rw [h.inputs hnd] at he
      have he := mem_of_mem_filter he
      have hne : e.2.op ≠ v := fun heq => hdag.separate _ hpop _ hreads.innerDag
        (hdag.closed _ hpop _ hreads.innerDag e he) (heq ▸ h.mem)
      rw [h.innerOp _ hne]
      exact hports.lookups e he
    · rw [h.inputs hnd]
      exact hports.distinct.sublist (filter_sublist.map _)

theorem Unbroadcast.distinctOperators : DistinctOperators dag' := by
  have hedges : ∀ e ∈ dag'.edges, e ∈ dag.edges := by
    unfold PortedDag.edges
    rw [h.flows]
    exact fun e he => map_subset _ erase_subset he
  -- the workers have their old operators and the constant
  have hinner' {u : ℕ} (hu : u ∈ inner'.operators) : u ∈ inner.operators ∨ u = v := by
    rw [h.innerOperators] at hu
    simpa using mem_of_mem_erase (mem_of_mem_erase hu)
  refine (h.changed hdag).distinctOperators hdag ⟨?_, fun e he => ?_, hdag.graph.acyclic.mono hedges⟩ ?_
    (fun e he => ?_) fun x hx => ⟨fun hx' => ?_, fun u hu hup inner1 hinner1 hx' => ?_⟩
  · rw [h.operators]
    exact hdag.graph.nodup.erase v
  · -- the constant has no other flows
    obtain ⟨g, hg, rfl⟩ := mem_map.mp he
    rw [h.flows] at hg
    have hne := h.isolated.1 g hg
    have hclosed := hdag.graph.closed _ (mem_map_of_mem (mem_of_mem_erase hg))
    rw [h.operators, hdag.graph.nodup.mem_erase_iff, hdag.graph.nodup.mem_erase_iff]
    exact ⟨⟨hne.1, hclosed.1⟩, hne.2, hclosed.2⟩
  · rw [h.innerOperators]
    refine List.Nodup.erase _ (List.Nodup.erase _ (nodup_append.mpr
      ⟨hdag.nodup _ hpop _ hreads.innerDag, nodup_singleton v, ?_⟩))
    rintro x hx y hy rfl
    obtain rfl := mem_singleton.mp hy
    exact hdag.separate _ hpop _ hreads.innerDag hx h.mem
  · rw [h.inputs (hports.nodup_inputs)] at he
    obtain ⟨he, hne⟩ := mem_filter.mp he
    -- the broadcast is no lookup, so it is none of the inputs
    have hb : e.2.op ≠ b := by
      intro heq
      have hlook := hports.lookups e he
      rw [heq, hreads.broadcast] at hlook
      cases hlook
    rw [h.innerOperators]
    refine (mem_erase_of_ne hb).mpr ((mem_erase_of_ne (of_decide_eq_true hne)).mpr ?_)
    exact mem_append_left _ (hdag.closed _ hpop _ hreads.innerDag e he)
  · obtain ⟨hmem, hne⟩ := h.mem_operators hdag hx'
    exact hdag.separate _ hpop _ hreads.innerDag ((hinner' hx).resolve_right hne) hmem
  · obtain ⟨hu, -⟩ := h.mem_operators hdag hu
    rcases hinner' hx with hx | rfl
    · exact hdag.disjoint u hu _ hpop hup _ hinner1 _ hreads.innerDag hx' hx
    · exact hdag.separate u hu _ hinner1 hx' h.mem

end

end

end

/-- **One constant.** -/
theorem unbroadcast_ports (hdag : DistinctOperators dag) (hall : AllPortsConsistent dag)
    (h : unbroadcast dag v = some dag') :
    (AllPortsConsistent dag' ↔ DropsLastPort dag v) ∧ DistinctOperators dag' := by
  rcases unbroadcast_eq_some h with ⟨rfl, hnot⟩ | ⟨f, inner, inner', tip, b, hreads, hstep⟩
  · exact ⟨iff_of_true hall fun f inner tip b hreads => absurd hreads (hnot f inner tip b), hdag⟩
  · have hmem := (Dag.mem_inFlows.mp hreads.mem_inFlows).1
    have hpop : f.target.op ∈ dag.operators := (hdag.graph.closed _ (mem_map_of_mem hmem)).2
    obtain ⟨inner1, hinner1, hports⟩ := hall f.target.op hpop hreads.parallel
    obtain rfl := some.inj (hreads.innerDag.symm.trans hinner1)
    have hiff := hstep.consistent_iff hreads hdag hpop hports
    have hne : f.target.op ≠ v := by
      have hsrc : f.source.op = v := by
        have hout : f ∈ dag.graph.outFlows v := Dag.single_eq_some.mp hreads.outFlow ▸ mem_singleton_self f
        exact (Dag.mem_outFlows.mp hout).2
      exact hsrc ▸ (hdag.graph.ne (mem_edges.mpr ⟨f, hmem, rfl, rfl⟩)).symm
    have hdrops : DropsLastPort dag v ↔ f.target.port + 1 = (dag.op f.target.op).operator.cls.numInPorts := by
      refine ⟨fun hdrops => hdrops f inner tip b hreads, fun hlast f' inner2 tip' b' hreads' => ?_⟩
      obtain rfl := some.inj (hreads.outFlow.symm.trans hreads'.outFlow)
      exact hlast
    refine ⟨Iff.trans ?_ (hiff.trans hdrops.symm), hstep.distinctOperators hreads hdag hpop hports⟩
    refine (hstep.changed hdag).allPortsConsistent_iff hall ?_ hstep.parallel fun u hu hup inner1 hports' =>
      ⟨?_, ?_, hports'.lookups, hports'.distinct⟩
    · rw [hstep.operators]
      exact (mem_erase_of_ne hne).mpr hpop
    · -- the flow from the constant leads to another operator
      have hnot : f ∉ dag.graph.inFlows u := fun hf => hup (Dag.mem_inFlows.mp hf).2.symm
      rw [hstep.inFlows_eq, erase_of_not_mem hnot, hstep.op u hup]
      exact hports'.flows
    · rw [hstep.op u hup]
      exact hports'.inputs

end Unbroadcast

/-! ### Runs -/

/-- If the state is about to merge two operators, then the merge fills the ports. -/
def MergeState.FillsPorts (topSort : TopologicalSort ℕ) (s : MergeState I) : Prop :=
  ∀ pop other, s.current = some pop → precedingParallel s.dag pop = some other →
    postpones topSort s.dag pop other = false → Optimize.FillsPorts s.dag pop other

/-- The plans that the loop over the constants reaches, as long as each constant it moves is the last input. -/
inductive ConstantsMoved (dag : Plan I) : Plan I → Prop
  | refl : ConstantsMoved dag dag
  | step {dag₁ dag₂ : Plan I} {v : ℕ} : ConstantsMoved dag dag₁ → DropsLastPort dag₁ v →
      unbroadcast dag₁ v = some dag₂ → ConstantsMoved dag dag₂

section Runs

variable {topSort : TopologicalSort ℕ} {dag : Plan I}

/-- The loop keeps the ports consistent, as long as all its merges fill them. -/
theorem steps_ports (hsort : IsTopologicalSort topSort) (hdag : DistinctOperators dag)
    (hall : AllPortsConsistent dag) (k : ℕ) {s : MergeState I}
    (hs : steps topSort k (start topSort dag) = some s)
    (hfills : ∀ j < k, ∀ s', steps topSort j (start topSort dag) = some s' →
      s'.FillsPorts topSort) :
    LoopInv s ∧ DistinctOperators s.dag ∧ AllPortsConsistent s.dag := by
  induction k generalizing s with
  | zero =>
    cases hs
    exact ⟨LoopInv.start hsort hdag.graph, hdag, hall⟩
  | succ k ih =>
    obtain ⟨s1, hs1, hstep⟩ := bind_eq_some_iff.mp hs
    obtain ⟨hinv, hdag1, hall1⟩ := ih hs1 fun j hj => hfills j (Nat.lt_succ_of_lt hj)
    have hkind := stepKind_of_step hstep
    have hinv' := hinv.step hsort hkind
    refine ⟨hinv', ?_⟩
    cases hkind with
    | finished _ | take _ _ | drop _ _ | postpone _ _ _ => exact ⟨hdag1, hall1⟩
    | @merge pop other dag' hcur hprec hpost hmerge =>
      obtain ⟨hedge, hpar⟩ := precedingParallel_eq_some hprec
      have hflow : ParallelFlow s1.dag other pop := ⟨hedge, hpar, (hinv.current pop hcur).2⟩
      obtain ⟨hiff, hdag', -⟩ := merge_ports hdag1 hall1 hflow hinv'.graph hmerge
      exact ⟨hdag', hiff.mpr (hfills k (Nat.lt_succ_self k) s1 hs1 pop other hcur hprec hpost)⟩

theorem ConstantsMoved.ports {dag' : Plan I} (h : ConstantsMoved dag dag') (hdag : DistinctOperators dag)
    (hall : AllPortsConsistent dag) : DistinctOperators dag' ∧ AllPortsConsistent dag' := by
  induction h with
  | refl => exact ⟨hdag, hall⟩
  | step _ hdrops hstep ih =>
    obtain ⟨hiff, hdag'⟩ := unbroadcast_ports ih.1 ih.2 hstep
    exact ⟨hdag', hiff.mpr hdrops⟩

end Runs

/-- **The ports of merged operators.**  In every run of the loop whose merges so far have all filled the ports, the
    ports are consistent.  The next merge keeps what feeds the lookups and overwrites no input, and it keeps the ports
    consistent exactly if it fills them.  Once constants are moved into the workers, each of which was the last input,
    the ports are still consistent; the next constant keeps them so exactly if it is the last input. -/
theorem ports_consistent_iff (dag : Plan I) (hdag : DistinctOperators dag) (hall : AllPortsConsistent dag)
    (topSort : TopologicalSort ℕ) (hsort : IsTopologicalSort topSort) (k : ℕ)
    (s : MergeState I) (hs : steps topSort k (start topSort dag) = some s)
    (hfills : ∀ j < k, ∀ s', steps topSort j (start topSort dag) = some s' →
      s'.FillsPorts topSort) :
    AllPortsConsistent s.dag ∧
    (∀ pop other dag', s.current = some pop → precedingParallel s.dag pop = some other →
      postpones topSort s.dag pop other = false → mergeInto s.dag pop other = some dag' →
      MergeKeeps s.dag dag' pop other ∧ (AllPortsConsistent dag' ↔ FillsPorts s.dag pop other)) ∧
    ∀ dag₁, ConstantsMoved s.dag dag₁ → AllPortsConsistent dag₁ ∧
      ∀ v dag₂, unbroadcast dag₁ v = some dag₂ → (AllPortsConsistent dag₂ ↔ DropsLastPort dag₁ v) := by
  obtain ⟨hinv, hdag', hall'⟩ := steps_ports hsort hdag hall k hs hfills
  refine ⟨hall', fun pop other dag' hcur hprec hpost hmerge => ?_, fun dag₁ hmoved => ?_⟩
  · obtain ⟨hedge, hpar⟩ := precedingParallel_eq_some hprec
    have hflow : ParallelFlow s.dag other pop := ⟨hedge, hpar, (hinv.current pop hcur).2⟩
    have hgraph := (mergeInto_merged hinv.graph hmerge).outerGraph hinv.graph hedge
      fun t ht hne => not_reaches_of_not_postpones hsort hinv.graph hpost ht hne
    obtain ⟨hiff, -, hkeeps⟩ := merge_ports hdag' hall' hflow hgraph hmerge
    exact ⟨hkeeps, hiff⟩
  · obtain ⟨hdag₁, hall₁⟩ := hmoved.ports hdag' hall'
    exact ⟨hall₁, fun v dag₂ hstep => (unbroadcast_ports hdag₁ hall₁ hstep).1⟩

/-! ### Two plans -/

theorem distinctOperators_workersBehindWorkers : DistinctOperators workersBehindWorkers :=
  ⟨outerGraph_of_lt (by decide) (by decide), by decide, by decide, by unfold List.Disjoint; decide,
    by unfold List.Disjoint; decide⟩

instance (dag : Plan I) (v : ℕ) (inner : OpDag I) : Decidable (PortsConsistent dag v inner) :=
  decidable_of_iff (_ ∧ _ ∧ _ ∧ _) ⟨fun ⟨h₁, h₂, h₃, h₄⟩ => ⟨h₁, h₂, h₃, h₄⟩, fun ⟨h₁, h₂, h₃, h₄⟩ => ⟨h₁, h₂, h₃, h₄⟩⟩

instance (dag : Plan I) : Decidable (AllPortsConsistent dag) :=
  inferInstanceAs (Decidable (∀ v ∈ dag.operators, isParallel dag v = true → ∃ inner ∈ (dag.op v).innerDag,
    PortsConsistent dag v inner))

/-- A chain has one topological order. -/
theorem topologicalSort_chain {topSort : TopologicalSort ℕ}
    (hsort : IsTopologicalSort topSort) :
    topSort [0, 1, 2, 3] [(0, 1), (1, 2), (2, 3)] = [3, 2, 1, 0] := by
  have hclosed : ∀ e ∈ [(0, 1), (1, 2), (2, 3)], e.1 ∈ [0, 1, 2, 3] ∧ e.2 ∈ [0, 1, 2, 3] := by decide
  have hacyc : Acyclic [(0, 1), (1, 2), (2, 3)] := acyclic_of_lt id (by decide)
  have hperm := (hsort [0, 1, 2, 3] _ (by decide) hclosed hacyc).1
  have hlt {u v : ℕ} (huv : (u, v) ∈ [(0, 1), (1, 2), (2, 3)]) :=
    hsort.idxOf_lt (by decide) hclosed hacyc (.single huv)
  have hall : ∀ l ∈ [0, 1, 2, 3].permutations', l.idxOf 1 < l.idxOf 0 → l.idxOf 2 < l.idxOf 1 →
      l.idxOf 3 < l.idxOf 2 → l = [3, 2, 1, 0] := by decide
  exact hall _ (mem_permutations'.mpr hperm) (hlt (by decide)) (hlt (by decide)) (hlt (by decide))

theorem start_workersBehindWorkers :
    start sinksFirst workersBehindWorkers = ⟨workersBehindWorkers, [2, 1], none⟩ := by
  have hsorted : sinksFirst workersBehindWorkers.operators workersBehindWorkers.edges = [3, 2, 1, 0] :=
    topologicalSort_chain isTopologicalSort_sinksFirst
  rw [start, hsorted]
  rfl

theorem steps_workersBehindWorkers :
    steps sinksFirst 1 (start sinksFirst workersBehindWorkers) = some ⟨workersBehindWorkers, [1], some 2⟩ := by
  rw [start_workersBehindWorkers]
  rfl

/-- A merge is put off only for the sake of other operators. -/
theorem not_postpones_of_nil {dag : Plan I} {pop other : ℕ} (h : otherOutFlows dag pop other = [])
    (topSort : TopologicalSort ℕ) : postpones topSort dag pop other = false := by
  rw [postpones, h]
  rfl

/-- The ports of the merged workers, after one step of the loop. -/
theorem ports_consistent_workersBehindWorkers :
    ∃ dag', mergeInto workersBehindWorkers 2 1 = some dag' ∧ AllPortsConsistent dag' := by
  have hmerge : (mergeInto workersBehindWorkers 2 1).isSome := by decide +kernel
  obtain ⟨dag', hdag'⟩ := Option.isSome_iff_exists.mp hmerge
  obtain ⟨-, hmerges, -⟩ := ports_consistent_iff workersBehindWorkers distinctOperators_workersBehindWorkers
    (by decide) sinksFirst isTopologicalSort_sinksFirst 1 _ steps_workersBehindWorkers
    fun j hj s hs pop other hcur => by
      obtain rfl : j = 0 := by omega
      cases hs
      cases hcur
  refine ⟨dag', hdag', (hmerges 2 1 dag' rfl rfl (not_postpones_of_nil (by decide) _) hdag').2.mpr fun i hle hlt => ?_⟩
  exact absurd (hle.trans_lt hlt) (by decide)

/-- Workers with three inputs, two of which come from workers with one input. -/
def twiceFromWorkers : Plan Empty where
  operators := [0, 1, 2, 3]
  op
    | 1 => ⟨⟨1, none, "", .concurrentExecute 1 1⟩, some (workers 10 1 .map)⟩
    | 3 => ⟨⟨3, none, "", .concurrentExecute 3 1⟩, some (workers 20 3 .cartesian)⟩
    | v => ⟨⟨v, none, "", .constantTuple ["1"]⟩, none⟩
  flows := [⟨⟨0, 0⟩, ⟨1, 0⟩⟩, ⟨⟨1, 0⟩, ⟨3, 0⟩⟩, ⟨⟨1, 0⟩, ⟨3, 1⟩⟩, ⟨⟨2, 0⟩, ⟨3, 2⟩⟩]
  inputs := ∅
  outputs := (∅ : SortedMap.Map ℕ FlowTip).assign 0 ⟨3, 0⟩

/-- Two ports become free, of which the only input of the absorbed workers takes one: the merged workers have two
    inputs, at the ports 0 and 2.  No order puts the merge off. -/
theorem twiceFromWorkers_leaves_gap : AllPortsConsistent twiceFromWorkers ∧
    precedingParallel twiceFromWorkers 3 = some 1 ∧ otherOutFlows twiceFromWorkers 3 1 = [] ∧
    ∃ dag', mergeInto twiceFromWorkers 3 1 = some dag' ∧ ¬ AllPortsConsistent dag' := by
  have heval : (mergeInto twiceFromWorkers 3 1).map (fun dag => ((dag.graph.inFlows 3).map (fun f => f.target.port),
      (dag.op 3).operator.cls.numInPorts, decide (3 ∈ dag.operators), isParallel dag 3)) =
      some ([2, 0], 2, true, true) := by decide +kernel
  obtain ⟨dag', hdag', heval⟩ := Option.map_eq_some_iff.mp heval
  obtain ⟨hports, heval⟩ := Prod.mk.inj heval
  obtain ⟨hnumIns, heval⟩ := Prod.mk.inj heval
  obtain ⟨hmem, hpar⟩ := Prod.mk.inj heval
  refine ⟨by decide, rfl, by decide, dag', hdag', fun hall => ?_⟩
  obtain ⟨inner, -, hconsistent⟩ := hall 3 (of_decide_eq_true hmem) hpar
  have hflows := hconsistent.flows
  rw [hports, hnumIns] at hflows
  exact absurd hflows (by decide)

end Jitq.Optimize

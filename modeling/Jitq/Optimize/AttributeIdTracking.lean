import Jitq.Dag.AttributeId
import Jitq.Optimize.DetermineSortedness
import Mathlib.Logic.Relation

namespace Jitq.Optimize

open Operators Attributes List Function Option

/-! # AttributeIdTracking — which fields hold the same attribute

The pass visits the operators of a plan, each after its inputs.  A field of an output tuple that is a copy of an
input field gets its attribute id; a `Join` moves all fields with the id of its right key to the id of its left key.

* `trackTuples` — the calls that `AttributeIdTrackingVisitor` makes for one operator;
* `linked_of_sameId` — fields with the same id are linked by copies and join keys of the plan;
* `Implied` — the equalities between fields that hold in the tuples of one operator, because of the copies and keys
  on the way to it;
* `trackedIds_sound` — ids imply equal values, if links that meet in one operator are implied there. -/

/-! ### The visitor -/

/-- The calls of the visitor, of `AddField` on the id of the input field and of `MoveFields` on the id of the left
    field, with the id of the right field by reference. -/
inductive Tracking
  | copy (input output : ℕ)
  | merge (left right : ℕ)
  deriving DecidableEq

def Tracking.apply (s : Heap) : Tracking → Option Heap
  | copy input output => (s.attributeId input).bind fun id => s.addField id output
  | merge left right => (s.attributeId left).bind fun id => s.moveFields id (.member right)

variable {α : Type}

/-- The fields that the visitor takes for copies, in the order of its calls: `(port, i, j)` for field `i` of the
    input at `port` and field `j` of the output.  `outputPositions` is `ComputeOutputPositions` of a `Map`. -/
def copiedFields (outputPositions : ℕ → List ℕ) : Operator α → List ℕ → ℕ → List (ℕ × ℕ × ℕ)
  | .filter _, _, width => (range width).map fun i => (0, i, i)
  | .cartesian, [left, right], _ =>
    (range left).map (fun i => (0, i, i)) ++ (range right).map fun i => (1, i, i + left)
  | .join numKeys, [left, right], _ => (range left).map (fun i => (0, i, i)) ++
      (range' numKeys (right - numKeys)).map fun i => (1, i, i + left - numKeys)
  -- the call for one position is there twice
  | .map _, [input], _ =>
    (range input).flatMap fun i => (outputPositions i).flatMap fun pos => [(0, i, pos), (0, i, pos)]
  | .reduceByKey _, _, _ => [(0, 0, 0)]
  | .reduceByKeyGrouped _, _, _ => [(0, 0, 0)]
  | _, _, _ => []

/-- The keys that a `Join` merges: the first field of its inputs, whatever the number of keys. -/
def mergedFields : Operator α → List (List ℕ) → Option (List Tracking)
  | .join _, [left, right] => do
    let leftKey ← left[0]?
    let rightKey ← right[0]?
    some [.merge leftKey rightKey]
  | _, _ => some []

/-- The calls for an operator with the given tuples at its ports; an index outside of a tuple is `none`. -/
def trackTuples (outputPositions : ℕ → List ℕ) (op : Operator α) (inputs : List (List ℕ)) (output : List ℕ) :
    Option (List Tracking) := do
  let merges ← mergedFields op inputs
  let copies ← (copiedFields outputPositions op (inputs.map List.length) output.length).mapM fun (port, i, j) => do
    let input ← (inputs[port]?).bind (·[i]?)
    let output ← output[j]?
    some (Tracking.copy input output)
  some (merges ++ copies)

/-- The calls for one operator of a plan; `tuples v` are the fields of the output tuple of `v`. -/
def trackingOf (dag : Dag (Operator α)) (tuples : ℕ → List ℕ) (outputPositions : ℕ → ℕ → List ℕ) (v : ℕ) :
    Option (List Tracking) :=
  (dag.predecessors v).bind fun us => trackTuples (outputPositions v) (dag.op v) (us.map tuples) (tuples v)

/-- `AttributeIdTracking::Run`, up to the read and write sets. -/
def attributeIdTracking (dag : Dag (Operator α)) (tuples : ℕ → List ℕ) (outputPositions : ℕ → ℕ → List ℕ)
    (order : List ℕ) (s : Heap) : Option Heap :=
  order.foldlM (fun s v => (trackingOf dag tuples outputPositions v).bind (·.foldlM Tracking.apply s)) s

/-! ### Links between fields -/

section Links

variable (dag : Dag (Operator α)) (tuples : ℕ → List ℕ) (outputPositions : ℕ → ℕ → List ℕ)

/-- A copy or a merged key of the plan. -/
def Link (f g : ℕ) : Prop :=
  ∃ v ∈ dag.operators, ∃ ts, trackingOf dag tuples outputPositions v = some ts ∧ (.copy f g ∈ ts ∨ .merge f g ∈ ts)

/-- The fields are linked by copies and join keys anywhere in the plan. -/
def FieldsLinked : ℕ → ℕ → Prop := Relation.EqvGen (Link dag tuples outputPositions)

variable {dag tuples outputPositions}

/-- A labelling that the links respect tells fields apart that are not linked. -/
theorem FieldsLinked.label_eq {L : Type} {label : ℕ → L} (hlink : ∀ f g, Link dag tuples outputPositions f g → label f = label g)
    {f g : ℕ} (h : FieldsLinked dag tuples outputPositions f g) : label f = label g := by
  induction h with
  | rel f g h => exact hlink f g h
  | refl f => rfl
  | symm f g _ ih => exact ih.symm
  | trans f g k _ _ ih1 ih2 => exact ih1.trans ih2

end Links

/-- The field has the id, or it is in its set. -/
def InClass (s : Heap) (id f : ℕ) : Prop := s.attributeId f = some id ∨ f ∈ s.fields id

/-- The fields of an id are related. -/
def ClassesWithin (R : ℕ → ℕ → Prop) (s : Heap) : Prop := ∀ id f g, InClass s id f → InClass s id g → R f g

section Classes

variable {R : ℕ → ℕ → Prop} {s s' : Heap}

theorem inClass_leaveId {id f field : ℕ} (h : InClass (s.leaveId field) id f) : InClass s id f := by
  obtain hattr | hmem := h
  · rw [leaveId_attributeId] at hattr
    by_cases hf : f = field
    · subst hf
      simp at hattr
    · rw [update_of_ne hf] at hattr
      exact .inl hattr
  · exact .inr (mem_leaveId_fields.mp hmem).1

theorem inClass_addField {this field id f : ℕ} (hadd : s.addField this field = some s') (h : InClass s' id f) :
    InClass s id f ∨ (id = this ∧ f = field) := by
  unfold Heap.addField at hadd
  split at hadd
  · cases hadd
    obtain hattr | hmem := h
    · simp only [Heap.enterId] at hattr
      by_cases hf : f = field
      · subst hf
        rw [update_self, some_inj] at hattr
        exact .inr ⟨hattr.symm, rfl⟩
      · rw [update_of_ne hf] at hattr
        exact .inl (inClass_leaveId (.inl hattr))
    · simp only [Heap.enterId] at hmem
      by_cases hid : id = this
      · subst hid
        rw [update_self, Finset.mem_insert] at hmem
        exact hmem.elim (fun hf => .inr ⟨rfl, hf⟩) fun hmem => .inl (inClass_leaveId (.inr hmem))
      · rw [update_of_ne hid] at hmem
        exact .inl (inClass_leaveId (.inr hmem))
  · cases hadd

theorem inClass_moveFields {this id id' f : ℕ} {other : IdRef} (hget : s.get other = some id)
    (hmove : s.moveFields this other = some s') (h : InClass s' id' f) :
    InClass s id' f ∨ (id' = this ∧ f ∈ s.fields id) := by
  rw [Heap.moveFields, hget, bind_some] at hmove
  split at hmove
  · obtain ⟨cleared, -, rfl⟩ := map_eq_some_iff.mp hmove
    obtain hattr | hmem := h
    · have hattr' : (if f ∈ s.fields id then some this else s.attributeId f) = some id' := hattr
      split at hattr'
      · rename_i hf
        exact .inr ⟨(some.inj hattr').symm, hf⟩
      · exact .inl (.inl hattr')
    · simp only [Heap.takeFields] at hmem
      by_cases hcleared : id' = cleared
      · subst hcleared
        simp at hmem
      · rw [update_of_ne hcleared] at hmem
        by_cases hid : id' = this
        · subst hid
          rw [update_self, Finset.mem_union] at hmem
          exact hmem.elim (fun hf => .inl (.inr hf)) fun hf => .inr ⟨rfl, hf⟩
        · rw [update_of_ne hid] at hmem
          exact .inl (.inr hmem)
  · cases hmove

/-- One call of the visitor keeps the classes within a relation that has its copies and merged keys. -/
theorem ClassesWithin.apply (hR : Equivalence R) (h : ClassesWithin R s) {t : Tracking}
    (ht : match t with | .copy f g => R f g | .merge f g => R f g) (hs' : t.apply s = some s') :
    ClassesWithin R s' := by
  -- everything that is new in the class of an id is related to a field that was there before
  suffices hnew : ∃ this old, InClass s this old ∧ ∀ id f, InClass s' id f →
      InClass s id f ∨ (id = this ∧ R f old) by
    obtain ⟨this, old, hold, hnew⟩ := hnew
    intro id f g hf hg
    rcases hnew id f hf with hf | ⟨rfl, hf⟩ <;> rcases hnew _ g hg with hg | ⟨heq, hg⟩
    · exact h id f g hf hg
    · subst heq
      exact hR.trans (h id f old hf hold) (hR.symm hg)
    · exact hR.trans hf (h id old g hold hg)
    · exact hR.trans hf (hR.symm hg)
  cases t with
  | copy input output =>
    obtain ⟨this, hthis, hadd⟩ := bind_eq_some_iff.mp hs'
    refine ⟨this, input, .inl hthis, fun id f hf => ?_⟩
    rcases inClass_addField hadd hf with hold | ⟨hid, rfl⟩
    · exact .inl hold
    · exact .inr ⟨hid, hR.symm ht⟩
  | merge left right =>
    obtain ⟨this, hthis, hmove⟩ := bind_eq_some_iff.mp hs'
    cases hright : s.attributeId right with
    | none =>
      rw [Heap.moveFields] at hmove
      simp [Heap.get, hright] at hmove
    | some id =>
      have hget : s.get (.member right) = some id := hright
      refine ⟨this, left, .inl hthis, fun id' f hf => ?_⟩
      refine (inClass_moveFields hget hmove hf).imp_right (And.imp_right fun hfield => ?_)
      exact hR.trans (h id f right (.inr hfield) (.inl hright)) (hR.symm ht)

theorem ClassesWithin.foldlM_apply (hR : Equivalence R) (h : ClassesWithin R s) {ts : List Tracking}
    (hts : ∀ t ∈ ts, match t with | .copy f g => R f g | .merge f g => R f g)
    (hs' : ts.foldlM Tracking.apply s = some s') : ClassesWithin R s' :=
  Partial.foldlM_invariant (fun _ t ht _ h hs' => h.apply hR (hts t ht) hs') h hs'

end Classes

/-- Every field has an id of its own, as `Tuple::Tuple(type)` makes it. -/
def OwnIds (s : Heap) : Prop := ClassesWithin Eq s

/-- **Fields with the same id are linked.** -/
theorem linked_of_sameId {dag : Dag (Operator α)} {tuples : ℕ → List ℕ} {outputPositions : ℕ → ℕ → List ℕ}
    {order : List ℕ} {s s' : Heap} (hown : OwnIds s) (horder : order ⊆ dag.operators)
    (hrun : attributeIdTracking dag tuples outputPositions order s = some s') {f g id : ℕ}
    (hf : s'.attributeId f = some id) (hg : s'.attributeId g = some id) :
    FieldsLinked dag tuples outputPositions f g := by
  have hR : Equivalence (FieldsLinked dag tuples outputPositions) := Relation.EqvGen.is_equivalence _
  have hstart : ClassesWithin (FieldsLinked dag tuples outputPositions) s := by
    intro id f g hf hg
    rw [hown id f g hf hg]
    exact hR.refl g
  refine Partial.foldlM_invariant (fun s v hv s' h hs' => ?_) hstart hrun id f g (.inl hf) (.inl hg)
  obtain ⟨ts, hts, happly⟩ := bind_eq_some_iff.mp hs'
  refine h.foldlM_apply hR (fun t ht => ?_) happly
  cases t with
  | copy f g => exact .rel f g ⟨v, horder hv, ts, hts, .inl ht⟩
  | merge f g => exact .rel f g ⟨v, horder hv, ts, hts, .inr ht⟩

/-! ### Equalities in the tuples of an operator -/

section SameValue

variable [BEq α] {a b c : Option (Value α)}

/-- Two fields have the same value, or values that are equal for C++, like the two zeros. -/
def SameValue (a b : Option (Value α)) : Prop := a = b ∨ ∃ x y, a = some x ∧ b = some y ∧ x == y

theorem SameValue.eq [LawfulBEq α] (h : SameValue a b) : a = b := by
  rcases h with rfl | ⟨x, y, rfl, rfl, hxy⟩
  · rfl
  · rw [Value.eq_of_beq hxy]

variable [LT α] [Comparable α]

theorem SameValue.symm (h : SameValue a b) : SameValue b a := by
  rcases h with rfl | ⟨x, y, rfl, rfl, hxy⟩
  · exact .inl rfl
  · exact .inr ⟨y, x, rfl, rfl, BEq.symm hxy⟩

theorem SameValue.trans (hab : SameValue a b) (hbc : SameValue b c) : SameValue a c := by
  rcases hab with rfl | ⟨x, y, rfl, rfl, hxy⟩
  · exact hbc
  · rcases hbc with rfl | ⟨y', z, hy, rfl, hyz⟩
    · exact .inr ⟨x, y, rfl, rfl, hxy⟩
    · cases hy
      exact .inr ⟨x, z, rfl, rfl, BEq.trans hxy hyz⟩

end SameValue

/-- The fields that one tuple of an operator and the input tuples that it comes from have. -/
inductive RowVar
  | out (j : ℕ)
  | inp (port i : ℕ)
  deriving DecidableEq

/-- The number of input ports whose tuples the output tuples of an operator come from, one by one. -/
def trackedPorts : Operator α → ℕ
  | .filter _ | .map _ | .reduceByKey _ | .reduceByKeyGrouped _ => 1
  | .cartesian | .join _ => 2
  | _ => 0

/-- An output tuple and the input tuples that it comes from; the key of a reduction comes from every tuple of its
    group. -/
def Derives [BEq α] : Operator α → List (Tuple α) → Tuple α → Prop
  | .filter _, [u], t => t = u
  | .map function, [u], t => t = function u
  | .cartesian, [l, r], t => t = l ++ r
  | .join numKeys, [l, r], t =>
    l.take numKeys == r.take numKeys ∧ t = r.take numKeys ++ l.drop numKeys ++ r.drop numKeys
  | .reduceByKey _, [u], t => SameValue u[0]? t[0]?
  | .reduceByKeyGrouped _, [u], t => SameValue u[0]? t[0]?
  | op, [], _ => trackedPorts op = 0
  | _, _, _ => False

/-- `t` is a tuple of `v` that comes from tuples of its inputs. -/
structure Derivation [BEq α] (dag : Dag (Operator α)) (rows : ℕ → List (Tuple α)) (v : ℕ) (t : Tuple α)
    (ins : List (Tuple α)) : Prop where
  emitted : t ∈ rows v
  inputs : ∀ port u x, dag.predecessorOn v port = some u → ins[port]? = some x → x ∈ rows u
  derives : Derives (dag.op v) ins t

def RowVar.value (t : Tuple α) (ins : List (Tuple α)) : RowVar → Option (Value α)
  | .out j => t[j]?
  | .inp port i => (ins[port]?).bind (·[i]?)

section Implied

variable (dag : Dag (Operator α)) (width : ℕ → ℕ) (outputPositions : ℕ → ℕ → List ℕ)

/-- The equalities that the copies and the join keys on the way to an operator imply. -/
inductive Implied : ℕ → RowVar → RowVar → Prop
  | copy {v port i j : ℕ} {us : List ℕ} : dag.predecessors v = some us →
      (port, i, j) ∈ copiedFields (outputPositions v) (dag.op v) (us.map width) (width v) →
      Implied v (.inp port i) (.out j)
  | key {v numKeys k : ℕ} : dag.op v = .join numKeys → k < numKeys → Implied v (.inp 0 k) (.inp 1 k)
  | input {v port u i j : ℕ} : port < trackedPorts (dag.op v) → dag.predecessorOn v port = some u →
      Implied u (.out i) (.out j) → Implied v (.inp port i) (.inp port j)
  | refl (v : ℕ) (x : RowVar) : Implied v x x
  | symm {v : ℕ} {x y : RowVar} : Implied v x y → Implied v y x
  | trans {v : ℕ} {x y z : RowVar} : Implied v x y → Implied v y z → Implied v x z

/-- The copy analysis of the `Map` functions is exact: it finds the output fields that are always equal to an
    input field. -/
def CopiesExact : Prop :=
  ∀ v ∈ dag.operators, ∀ function u, dag.op v = .map function → dag.predecessorOn v 0 = some u →
    ∀ i < width u, ∀ pos, pos ∈ outputPositions v i ↔
      pos < width v ∧ ∀ args : Tuple α, args.length = width u → (function args)[pos]? = args[i]?

end Implied

variable {t : Tuple α}

theorem getElem?_eq_some_getD {i : ℕ} (h : i < t.length) : t[i]? = some (t.getD i default) := by
  rw [getD_eq_getElem _ _ h, getElem?_eq_getElem h]

theorem getElem?_zero_eq (h : 0 < t.length) : t[0]? = some t.v0 := by
  cases t with
  | nil => exact absurd h (lt_irrefl 0)
  | cons a t => rfl

section Derivations

variable [BEq α] {ins : List (Tuple α)}

theorem Derives.length_eq {op : Operator α} (h : Derives op ins t) : ins.length = trackedPorts op := by
  unfold Derives at h
  split at h
  all_goals first | rfl | exact h.symm | exact h.elim

variable {dag : Dag (Operator α)} {rows : ℕ → List (Tuple α)} {v : ℕ} {t : Tuple α} {op : Operator α}

theorem Derivation.one {u : ℕ} {x : Tuple α} (hop : dag.op v = op) (ht : t ∈ rows v)
    (hpred : dag.predecessorOn v 0 = some u) (hx : x ∈ rows u) (hderives : Derives op [x] t) :
    Derivation dag rows v t [x] := by
  refine ⟨ht, fun port u' x' hport hget => ?_, by rwa [hop]⟩
  cases port with
  | succ port => simp at hget
  | zero =>
    obtain rfl := some.inj (hpred.symm.trans hport)
    cases hget
    exact hx

theorem Derivation.two {l r : ℕ} {x y : Tuple α} (hop : dag.op v = op) (ht : t ∈ rows v)
    (hl : dag.predecessorOn v 0 = some l) (hr : dag.predecessorOn v 1 = some r) (hx : x ∈ rows l) (hy : y ∈ rows r)
    (hderives : Derives op [x, y] t) : Derivation dag rows v t [x, y] := by
  refine ⟨ht, fun port u' x' hport hget => ?_, by rwa [hop]⟩
  match port with
  | 0 =>
    obtain rfl := some.inj (hl.symm.trans hport)
    cases hget
    exact hx
  | 1 =>
    obtain rfl := some.inj (hr.symm.trans hport)
    cases hget
    exact hy
  | port + 2 => simp at hget

theorem Derivation.none (ht : t ∈ rows v) (hports : trackedPorts (dag.op v) = 0) : Derivation dag rows v t [] := by
  refine ⟨ht, fun port u x _ hget => ?_, ?_⟩
  · simp at hget
  · cases hop : dag.op v <;> rw [hop] at hports <;> exact hports

end Derivations

theorem mem_of_trackedPort {dag : Dag (Operator α)} {width : ℕ → ℕ} (h : dag.Checked width) {v port u : ℕ}
    (hv : v ∈ dag.operators)
    (hport : port < trackedPorts (dag.op v)) (hpred : dag.predecessorOn v port = some u) : u ∈ dag.operators := by
  obtain ⟨us, hus, hops, -⟩ := h.predecessors v hv
  have hports : (dag.op v).numInPorts = trackedPorts (dag.op v) := by
    cases hop : dag.op v <;> rw [hop] at hport <;> first | rfl | exact absurd hport (Nat.not_lt_zero port)
  obtain ⟨u', hu', hpred'⟩ := Partial.exists_of_mapM_eq_some hus (mem_range.mpr (hports ▸ hport))
  obtain rfl := some.inj (hpred.symm.trans hpred')
  exact hops u hu'

section Sound

variable [BEq α]

/-- The fields of the two keys of a result. -/
theorem sameValue_key {numKeys k : ℕ} {l r : Tuple α} (hmatch : l ∈ matchesOf numKeys [l] r)
    (hk : k < numKeys) : SameValue l[k]? r[k]? := by
  have hlen := (keys_of_mem_matchesOf hmatch).length_eq
  rw [length_take, length_take] at hlen
  by_cases hlt : k < l.length
  · rw [getElem?_eq_some_getD hlt, getElem?_eq_some_getD (by omega)]
    exact .inr ⟨_, _, rfl, rfl, getD_beq_of_mem_matchesOf hmatch hk hlt⟩
  · rw [getElem?_eq_none (by omega), getElem?_eq_none (by omega)]
    exact .inl rfl

section

variable {function : Tuple α → Tuple α → Tuple α} {xs : List (Tuple α)} {t : Tuple α}

/-- The keys of a reduction are keys of its input. -/
theorem exists_key_reduceTuples {order : HashTable.IterationOrder (Value α)}
    (ht : t ∈ reduceTuples order function xs) : ∃ u ∈ xs, t[0]? = some u.v0 := by
  obtain ⟨kv, hkv, rfl⟩ := mem_map.mp ht
  have hmem := (HashTable.entries_perm order _).mem_iff.mp hkv
  rcases HashTable.key_mem_of_mem_reduceTable function hmem with hnil | hkey
  · cases hnil
  · rw [List.map_map, List.mem_map] at hkey
    obtain ⟨u, hu, hkey⟩ := hkey
    exact ⟨u, hu, congrArg some hkey.symm⟩

theorem exists_key_reduceGroupedTuples [LT α] [Comparable α]
    (ht : t ∈ reduceGroupedTuples function xs) : ∃ u ∈ xs, t[0]? = some u.v0 := by
  have hsub := (column_reduceGroupedTuples function xs).1
  obtain ⟨kv, hkv, rfl⟩ := mem_map.mp ht
  have hkey : kv.1 ∈ column xs 0 := hsub.subset (mem_map.mpr ⟨_, ht, rfl⟩)
  rw [column_zero_eq, List.mem_map] at hkey
  obtain ⟨u, hu, hkey⟩ := hkey
  exact ⟨u, hu, congrArg some hkey.symm⟩

end

section

variable [LT α] [Arith α] {dag : Dag (Operator α)} {width : ℕ → ℕ} {rows : ℕ → List (Tuple α)}
  {outputPositions : ℕ → ℕ → List ℕ} {ins : List (Tuple α)} (h : TypedExecution dag width rows)

include h

/-- Every tuple comes from tuples of the inputs. -/
theorem TypedExecution.exists_derivation [Comparable α] {v : ℕ} (hv : v ∈ dag.operators)
    (ht : t ∈ rows v) : ∃ ins, Derivation dag rows v t ins := by
  -- the key of a reduction
  have hkey : ∀ {u : ℕ} {x : Tuple α}, u ∈ dag.operators → x ∈ rows u → 0 < width u → t[0]? = some x.v0 →
      SameValue x[0]? t[0]? := by
    intro u x hu hx hpos hkey
    exact .inl ((getElem?_zero_eq (h.typed u hu x hx ▸ hpos)).trans hkey.symm)
  cases hop : dag.op v with
  | columnScan _ | rowScan _ | range | other _ _ => exact ⟨[], .none ht (by rw [hop]; rfl)⟩
  | filter function =>
    obtain ⟨u, -, hpred, -, -, (hrows : rows v = (rows u).filter function)⟩ := h.input hv hop rfl
    exact ⟨[t], .one hop ht hpred (mem_of_mem_filter (hrows ▸ ht)) rfl⟩
  | map function =>
    obtain ⟨u, -, hpred, -, -, (hrows : rows v = (rows u).map function)⟩ := h.input hv hop rfl
    obtain ⟨x, hx, hxt⟩ := mem_map.mp (hrows ▸ ht)
    exact ⟨[x], .one hop ht hpred hx hxt.symm⟩
  | reduceByKey function =>
    obtain ⟨u, hu, hpred, -, ⟨hpos, -⟩, order, hrows⟩ := h.input hv hop rfl
    obtain ⟨x, hx, hx0⟩ := exists_key_reduceTuples (hrows ▸ ht)
    exact ⟨[x], .one hop ht hpred hx (hkey hu hx hpos hx0)⟩
  | reduceByKeyGrouped function =>
    obtain ⟨u, hu, hpred, -, ⟨hpos, -⟩, (hrows : rows v = reduceGroupedTuples function (rows u))⟩ :=
      h.input hv hop rfl
    obtain ⟨x, hx, hx0⟩ := exists_key_reduceGroupedTuples (hrows ▸ ht)
    exact ⟨[x], .one hop ht hpred hx (hkey hu hx hpos hx0)⟩
  | cartesian =>
    obtain ⟨l, -, r, -, hl, hr, -, (hrows : rows v = cartesianRows (· ++ ·) (rows l) (rows r))⟩ := h.inputs hv hop rfl
    obtain ⟨y, hy, ht'⟩ := mem_flatMap.mp (hrows ▸ ht)
    obtain ⟨x, hx, rfl⟩ := mem_map.mp ht'
    exact ⟨[x, y], .two hop ht hl hr hx hy rfl⟩
  | join numKeys =>
    obtain ⟨l, -, r, -, hl, hr, -, (hrows : rows v = joinTuples numKeys (rows l) (rows r))⟩ := h.inputs hv hop rfl
    have ht' := hrows ▸ ht
    rw [joinTuples_eq, mem_flatMap] at ht'
    obtain ⟨y, hy, ht'⟩ := ht'
    obtain ⟨x, hx, rfl⟩ := mem_map.mp ht'
    obtain ⟨hx, hkeys⟩ := mem_filter.mp hx
    exact ⟨[x, y], .two hop ht hl hr hx hy ⟨hkeys, rfl⟩⟩

/-- What the visitor takes for a copy is one. -/
theorem TypedExecution.copied_eq (hexact : CopiesExact dag width outputPositions)
    {v : ℕ} (hv : v ∈ dag.operators) {us : List ℕ} (hus : dag.predecessors v = some us) {port i j : ℕ}
    (hmem : (port, i, j) ∈ copiedFields (outputPositions v) (dag.op v) (us.map width) (width v))
    (hd : Derivation dag rows v t ins) : SameValue ((ins[port]?).bind (·[i]?)) t[j]? := by
  obtain ⟨hops, htypes⟩ := h.checked.of_predecessors hv hus
  have hlen : ∀ {port u x}, u ∈ us → dag.predecessorOn v port = some u → ins[port]? = some x → x.length = width u :=
    fun hu hpred hget => h.typed _ (hops _ hu) _ (hd.inputs _ _ _ hpred hget)
  have hderives := hd.derives
  cases hop : dag.op v with
  | columnScan _ | rowScan _ | range | other _ _ =>
    rw [hop] at hmem
    cases hmem
  | filter function =>
    rw [hop] at hderives hmem
    obtain ⟨x, rfl⟩ := length_eq_one_iff.mp hderives.length_eq
    obtain ⟨k, -, hk⟩ := mem_map.mp hmem
    obtain ⟨rfl, rfl, rfl⟩ := by simpa using hk
    obtain rfl : t = x := hderives
    exact .inl rfl
  | map function =>
    obtain ⟨u, rfl, hpred⟩ := Dag.predecessors_one hus (by rw [hop]; rfl)
    rw [hop] at hderives hmem
    obtain ⟨x, rfl⟩ := length_eq_one_iff.mp hderives.length_eq
    obtain ⟨k, hk, hpos⟩ := mem_flatMap.mp hmem
    obtain ⟨pos, hpos, hcall⟩ := mem_flatMap.mp hpos
    obtain ⟨rfl, rfl, rfl⟩ : port = 0 ∧ i = k ∧ j = pos := by simpa using hcall
    obtain rfl : t = function x := hderives
    have hx : x.length = width u := hlen mem_cons_self hpred rfl
    exact .inl (((hexact v hv function u hop hpred i (mem_range.mp hk) j).mp hpos).2 x hx).symm
  | reduceByKey function | reduceByKeyGrouped function =>
    rw [hop] at hderives hmem
    obtain ⟨x, rfl⟩ := length_eq_one_iff.mp hderives.length_eq
    obtain ⟨rfl, rfl, rfl⟩ : port = 0 ∧ i = 0 ∧ j = 0 := by simpa using mem_singleton.mp hmem
    exact hderives
  | cartesian =>
    obtain ⟨l, r, rfl, hl, hr⟩ := Dag.predecessors_two hus (by rw [hop]; rfl)
    rw [hop] at hderives hmem
    obtain ⟨x, y, rfl⟩ := length_eq_two.mp hderives.length_eq
    have hx : x.length = width l := hlen mem_cons_self hl rfl
    obtain rfl : t = x ++ y := hderives
    left
    obtain hleft | hright := mem_append.mp hmem
    · obtain ⟨k, hk, hcall⟩ := mem_map.mp hleft
      obtain ⟨rfl, rfl, rfl⟩ : 0 = port ∧ k = i ∧ k = j := by simpa using hcall
      rw [getElem?_append_left (hx ▸ mem_range.mp hk)]
      rfl
    · obtain ⟨k, hk, hcall⟩ := mem_map.mp hright
      obtain ⟨rfl, rfl, rfl⟩ : 1 = port ∧ k = i ∧ k + width l = j := by simpa using hcall
      rw [getElem?_append_right (by omega), hx, Nat.add_sub_cancel]
      rfl
  | join numKeys =>
    obtain ⟨l, r, rfl, hl, hr⟩ := Dag.predecessors_two hus (by rw [hop]; rfl)
    rw [hop] at hderives hmem htypes
    obtain ⟨x, y, rfl⟩ := length_eq_two.mp hderives.length_eq
    have hx : x.length = width l := hlen mem_cons_self hl rfl
    have hy : y.length = width r := hlen (by simp) hr rfl
    have ht : t.length = width v := h.typed v hv t hd.emitted
    obtain ⟨hkeys, rfl⟩ := hderives
    obtain ⟨-, hkeysLeft, -, hsum⟩ : 1 ≤ numKeys ∧ numKeys ≤ width l ∧ numKeys ≤ width r ∧
      width v = width l + (width r - numKeys) := htypes
    have hmatch : x ∈ matchesOf numKeys [x] y := mem_filter.mpr ⟨mem_singleton_self x, hkeys⟩
    obtain hleft | hright := mem_append.mp hmem
    · obtain ⟨k, hk, hcall⟩ := mem_map.mp hleft
      obtain ⟨rfl, rfl, rfl⟩ : 0 = port ∧ k = i ∧ k = j := by simpa using hcall
      have hlt : k < x.length := hx ▸ mem_range.mp hk
      show SameValue x[k]? _
      rw [getElem?_eq_some_getD hlt, getElem?_eq_some_getD (by omega)]
      rcases getD_join_left hmatch (by omega) hlt with heq | hbeq
      · exact .inl (congrArg some heq.symm)
      · exact .inr ⟨_, _, rfl, rfl, hbeq⟩
    · obtain ⟨k, hk, hcall⟩ := mem_map.mp hright
      obtain ⟨rfl, rfl, rfl⟩ : 1 = port ∧ k = i ∧ k + width l - numKeys = j := by simpa using hcall
      obtain ⟨hle, hlt⟩ := mem_range'_1.mp hk
      left
      show y[k]? = _
      rw [getElem?_eq_some_getD (by omega), getElem?_eq_some_getD (by omega)]
      exact congrArg some (getD_join_right hmatch hx hkeysLeft hle).symm

/-- **Implied equalities hold.** -/
theorem Implied.value_eq [Comparable α] (hexact : CopiesExact dag width outputPositions)
    {v : ℕ} {x y : RowVar} (himplied : Implied dag width outputPositions v x y) (hv : v ∈ dag.operators)
    (hd : Derivation dag rows v t ins) : SameValue (x.value t ins) (y.value t ins) := by
  induction himplied generalizing t ins with
  | copy hus hmem => exact h.copied_eq hexact hv hus hmem hd
  | @key v numKeys k hop hk =>
    have hderives := hop ▸ hd.derives
    obtain ⟨l, r, rfl⟩ := length_eq_two.mp hderives.length_eq
    have hmatch : l ∈ matchesOf numKeys [l] r := mem_filter.mpr ⟨mem_singleton_self l, hderives.1⟩
    exact sameValue_key hmatch hk
  | @input v port u i j hport hpred _ ih =>
    show SameValue ((ins[port]?).bind (·[i]?)) ((ins[port]?).bind (·[j]?))
    cases hget : ins[port]? with
    | none => exact .inl rfl
    | some x =>
      -- the input tuple comes from tuples, too
      have hu : u ∈ dag.operators := mem_of_trackedPort h.checked hv hport hpred
      obtain ⟨ins', hd'⟩ := h.exists_derivation hu (hd.inputs port u x hpred hget)
      exact ih hu hd'
  | refl v x => exact .inl rfl
  | symm _ ih => exact (ih hv hd).symm
  | trans _ _ ih1 ih2 => exact (ih1 hv hd).trans (ih2 hv hd)

end

end Sound

/-! ### Ids and values -/

section Ids

variable (dag : Dag (Operator α)) (tuples : ℕ → List ℕ)

/-- The field of the plan that a field of a tuple or input tuple belongs to. -/
def fieldOf (v : ℕ) : RowVar → Option ℕ
  | .out j => (tuples v)[j]?
  | .inp port i =>
    if port < trackedPorts (dag.op v) then (dag.predecessorOn v port).bind fun u => (tuples u)[i]? else none

/-- Fields that meet in the tuples of one operator are linked only if the copies and the keys on the way to this
    operator make them equal. -/
def LinksImplied (width : ℕ → ℕ) (outputPositions : ℕ → ℕ → List ℕ) : Prop :=
  ∀ v ∈ dag.operators, ∀ x y f g, fieldOf dag tuples v x = some f → fieldOf dag tuples v y = some g →
    FieldsLinked dag tuples outputPositions f g → Implied dag width outputPositions v x y

/-- Attribute ids imply equal values: those of two fields of one tuple, and those of a field and of a
    field of the input tuple that the tuple comes from. -/
def IdsImplyEqual [BEq α] (rows : ℕ → List (Tuple α)) (s : Heap) : Prop :=
  ∀ v ∈ dag.operators, ∀ t ∈ rows v, ∀ i f id : ℕ, (tuples v)[i]? = some f → s.attributeId f = some id →
    (∀ j g : ℕ, (tuples v)[j]? = some g → s.attributeId g = some id → SameValue t[i]? t[j]?) ∧
      ∀ ins, Derivation dag rows v t ins → ∀ (port u : ℕ) (x : Tuple α) (j g : ℕ),
        dag.predecessorOn v port = some u → ins[port]? = some x → (tuples u)[j]? = some g →
          s.attributeId g = some id → SameValue t[i]? x[j]?

variable [BEq α] [LT α] [Comparable α] [Arith α] {dag tuples} {width : ℕ → ℕ}
  {rows : ℕ → List (Tuple α)} {outputPositions : ℕ → ℕ → List ℕ}

/-- **Attribute ids imply equal values**, for all data, if links that meet are implied.  Each field
    starts with an id of its own, like after type inference: the ids that an earlier run of the pass
    has merged are not told apart again. -/
theorem trackedIds_sound (hrun : TypedExecution dag width rows) (hexact : CopiesExact dag width outputPositions)
    (hlinks : LinksImplied dag tuples width outputPositions) {order : List ℕ} (horder : dag.IsVisitOrder order)
    {s s' : Heap} (hown : OwnIds s) (htrack : attributeIdTracking dag tuples outputPositions order s = some s') :
    IdsImplyEqual dag tuples rows s' := by
  have hlinked : ∀ {f g id}, s'.attributeId f = some id → s'.attributeId g = some id →
      FieldsLinked dag tuples outputPositions f g :=
    linked_of_sameId hown (fun v hv => horder.perm.subset hv) htrack
  intro v hv t ht i f id hf hid
  refine ⟨fun j g hg hgid => ?_, fun ins hd port u x j g hpred hget hg hgid => ?_⟩
  · obtain ⟨ins, hd⟩ := hrun.exists_derivation hv ht
    have himplied := hlinks v hv (.out i) (.out j) f g hf hg (hlinked hid hgid)
    exact himplied.value_eq hrun hexact hv hd
  · have hport : port < trackedPorts (dag.op v) := by
      rw [← hd.derives.length_eq]
      exact (List.getElem?_eq_some_iff.mp hget).1
    have hfield : fieldOf dag tuples v (.inp port j) = some g := by
      rw [fieldOf, if_pos hport, hpred]
      exact hg
    have himplied := hlinks v hv (.out i) (.inp port j) f g hf hfield (hlinked hid hgid)
    have hval := himplied.value_eq hrun hexact hv hd
    rwa [RowVar.value, RowVar.value, hget] at hval

end Ids

/-! ### Two joins

`joinOf 1` joins two operators with two fields each.  `joinOf 0` joins the first of them with itself: its tuples have
the second field from two different tuples, under one id. -/

section JoinOf

def joinOf (right : ℕ) : Dag (Operator ℤ) where
  operators := [0, 1, 2]
  op
    | 0 => .other 0 fun _ out => out = [[.long 1, .long 2], [.long 1, .long 3]]
    | 1 => .other 0 fun _ out => out = [[.long 1, .long 4]]
    | _ => .join 1
  flows := [⟨⟨0, 0⟩, ⟨2, 0⟩⟩, ⟨⟨right, 0⟩, ⟨2, 1⟩⟩]
  outputs := [⟨2, 0⟩]

def joinOfWidth : ℕ → ℕ
  | 0 => 2
  | 1 => 2
  | _ => 3

def joinOfRows (right : ℕ) : ℕ → List (Tuple ℤ)
  | 0 => [[.long 1, .long 2], [.long 1, .long 3]]
  | 1 => [[.long 1, .long 4]]
  | _ => joinTuples 1 [[.long 1, .long 2], [.long 1, .long 3]]
      (if right = 0 then [[.long 1, .long 2], [.long 1, .long 3]] else [[.long 1, .long 4]])

def joinOfTuples : ℕ → List ℕ
  | 0 => [0, 1]
  | 1 => [2, 3]
  | _ => [4, 5, 6]

/-- `n` fields, each with an id of its own. -/
def freshFields (n : ℕ) : Heap where
  alive := Finset.range n
  attributeId f := if f < n then some f else none
  fields id := if id < n then {id} else ∅
  held := ∅

theorem ownIds_freshFields (n : ℕ) : OwnIds (freshFields n) := by
  have hid : ∀ {id f}, InClass (freshFields n) id f → f = id := by
    intro id f h
    simp only [InClass, freshFields] at h
    split_ifs at h <;> simp_all
  intro id f g hf hg
  rw [hid hf, hid hg]

theorem joinOf_execution {right : ℕ} (h : right = 0 ∨ right = 1) :
    TypedExecution (joinOf right) joinOfWidth (joinOfRows right) := by
  have htypes : Operator.TypeChecks (.join 1 : Operator ℤ) [2, 2] 3 := ⟨le_rfl, by decide, by decide, rfl⟩
  refine ⟨⟨by simp only [joinOf]; decide, fun v hv => ?_, fun v hv => ?_⟩, fun v hv => ?_, fun v hv => ?_⟩ <;>
    simp only [joinOf, mem_cons, not_mem_nil, or_false] at hv
  · rcases h with rfl | rfl <;> rcases hv with rfl | rfl | rfl <;> rfl
  · rcases hv with rfl | rfl | rfl
    · exact ⟨[], rfl, by simp, trivial⟩
    · exact ⟨[], rfl, by simp, trivial⟩
    · rcases h with rfl | rfl
      · exact ⟨[0, 0], rfl, by simp [joinOf], htypes⟩
      · exact ⟨[0, 1], rfl, by simp [joinOf], htypes⟩
  · rcases h with rfl | rfl <;> rcases hv with rfl | rfl | rfl <;> exact ⟨_, rfl, rfl⟩
  · rcases h with rfl | rfl <;> rcases hv with rfl | rfl | rfl <;> decide

theorem joinOf_copiesExact (right : ℕ) : CopiesExact (joinOf right) joinOfWidth fun _ _ => [] := by
  intro v hv function u hop
  simp only [joinOf, mem_cons, not_mem_nil, or_false] at hv
  rcases hv with rfl | rfl | rfl <;> cases hop

theorem joinOf_isVisitOrder {right : ℕ} (h : right = 0 ∨ right = 1) : (joinOf right).IsVisitOrder [0, 1, 2] := by
  rcases h with rfl | rfl <;> exact Dag.isVisitOrder_of_idxOf (List.Perm.refl _) (by simp only [joinOf]; decide)

/-- The attributes of `joinOf 1`: the key, and the second field of each side. -/
def joinOfLabel : ℕ → ℕ
  | 0 | 2 | 4 => 0
  | 1 | 5 => 1
  | _ => 2

theorem joinOf_label_eq {f g : ℕ} (h : FieldsLinked (joinOf 1) joinOfTuples (fun _ _ => []) f g) :
    joinOfLabel f = joinOfLabel g := by
  have hall : ∀ v ∈ [0, 1, 2], ∀ ts ∈ trackingOf (joinOf 1) joinOfTuples (fun _ _ => []) v, ∀ t ∈ ts,
      (match t with | .copy f g | .merge f g => decide (joinOfLabel f = joinOfLabel g)) = true := by decide
  refine FieldsLinked.label_eq (fun f g ⟨v, hv, ts, hts, hmem⟩ => ?_) h
  exact hmem.elim (fun h => of_decide_eq_true (hall v hv ts hts _ h)) fun h => of_decide_eq_true (hall v hv ts hts _ h)

/-- The field of the output that has the attribute. -/
def joinOfField : ℕ → ℕ → ℕ
  | 1, 2 => 1
  | _, label => label

/-- In the tuples of an operator, the fields of one attribute are equal to the output field that has it. -/
theorem joinOf_implied_label {v : ℕ} (hv : v ∈ (joinOf 1).operators) {x : RowVar} {f : ℕ}
    (hf : fieldOf (joinOf 1) joinOfTuples v x = some f) :
    Implied (joinOf 1) joinOfWidth (fun _ _ => []) v x (.out (joinOfField v (joinOfLabel f))) := by
  simp only [joinOf, mem_cons, not_mem_nil, or_false] at hv
  rcases hv with rfl | rfl | rfl
  case inl | inr.inl =>
    match x with
    | .out 0 | .out 1 => cases hf; exact .refl _ _
    | .out (j + 2) | .inp _ _ => cases hf
  have hcopy : ∀ {port i j}, (port, i, j) ∈ [(0, 0, 0), (0, 1, 1), (1, 1, 2)] →
      Implied (joinOf 1) joinOfWidth (fun _ _ => []) 2 (.inp port i) (.out j) := fun hmem => .copy rfl hmem
  have hkey : Implied (joinOf 1) joinOfWidth (fun _ _ => []) 2 (.inp 0 0) (.inp 1 0) := .key rfl Nat.zero_lt_one
  match x with
  | .out 0 | .out 1 | .out 2 => cases hf; exact .refl _ _
  | .out (j + 3) => simp [fieldOf, joinOfTuples] at hf
  | .inp 0 0 | .inp 0 1 | .inp 1 1 => cases hf; exact hcopy (by decide)
  | .inp 1 0 => cases hf; exact hkey.symm.trans (hcopy (by decide))
  | .inp 0 (i + 2) | .inp 1 (i + 2) => cases hf
  | .inp (port + 2) i =>
    have hport : ¬ port + 2 < trackedPorts ((joinOf 1).op 2) := by simp [joinOf, trackedPorts]
    cases hf

theorem joinOf_linksImplied : LinksImplied (joinOf 1) joinOfTuples joinOfWidth fun _ _ => [] := by
  intro v hv x y f g hf hg hlinked
  have himplied := joinOf_implied_label hv hf
  rw [joinOf_label_eq hlinked] at himplied
  exact himplied.trans (joinOf_implied_label hv hg).symm

theorem trackedIds_sound_joinOf :
    ∃ s', attributeIdTracking (joinOf 1) joinOfTuples (fun _ _ => []) [0, 1, 2] (freshFields 7) = some s' ∧
      IdsImplyEqual (joinOf 1) joinOfTuples (joinOfRows 1) s' := by
  cases htrack : attributeIdTracking (joinOf 1) joinOfTuples (fun _ _ => []) [0, 1, 2] (freshFields 7) with
  | none =>
    have hsome : (attributeIdTracking (joinOf 1) joinOfTuples (fun _ _ => []) [0, 1, 2] (freshFields 7)).isSome := by
      decide +kernel
    rw [htrack] at hsome
    cases hsome
  | some s' =>
    exact ⟨s', rfl, trackedIds_sound (joinOf_execution (.inr rfl)) (joinOf_copiesExact 1) joinOf_linksImplied
      (joinOf_isVisitOrder (.inr rfl)) (ownIds_freshFields 7) htrack⟩

/-- **A join of an operator with itself** has two fields with one id and different values. -/
theorem joinWithItself_confuses_fields :
    TypedExecution (joinOf 0) joinOfWidth (joinOfRows 0) ∧ CopiesExact (joinOf 0) joinOfWidth (fun _ _ => []) ∧
      (joinOf 0).IsVisitOrder [0, 1, 2] ∧ OwnIds (freshFields 7) ∧
      ∃ s', attributeIdTracking (joinOf 0) joinOfTuples (fun _ _ => []) [0, 1, 2] (freshFields 7) = some s' ∧
        ¬ IdsImplyEqual (joinOf 0) joinOfTuples (joinOfRows 0) s' := by
  refine ⟨joinOf_execution (.inl rfl), joinOf_copiesExact 0, joinOf_isVisitOrder (.inl rfl), ownIds_freshFields 7, ?_⟩
  have hids : (attributeIdTracking (joinOf 0) joinOfTuples (fun _ _ => []) [0, 1, 2] (freshFields 7)).map
      (fun s => (s.attributeId 5, s.attributeId 6)) = some (some 1, some 1) := by decide +kernel
  obtain ⟨s', htrack, hids⟩ := Option.map_eq_some_iff.mp hids
  obtain ⟨hleft, hright⟩ := Prod.mk.inj hids
  refine ⟨s', htrack, fun hequal => ?_⟩
  have hrows : joinOfRows 0 2 = [[.long 1, .long 2, .long 2], [.long 1, .long 3, .long 2],
      [.long 1, .long 2, .long 3], [.long 1, .long 3, .long 3]] := rfl
  have hmem : [.long 1, .long 2, .long 3] ∈ joinOfRows 0 2 := by simp [hrows]
  have hval := (hequal 2 (by simp [joinOf]) _ hmem 1 5 1 rfl hleft).1 2 6 rfl hright
  exact absurd hval.eq (by simp)

end JoinOf

end Jitq.Optimize

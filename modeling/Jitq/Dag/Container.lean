import Jitq.Dag.Edit
import Mathlib.Data.List.Nodup

namespace Jitq

open SortedMap List Function

/-! # Operator ids

An operator has its id as a member, and the `DAG` has a set `operator_ids_` of the ids that it gave out.  The
set never shrinks, and not every function keeps the two in step: `AddOperator` writes both, `ReplaceOperator`
none of them.

Here operators are objects on a heap.  `Container.Sound` ties the ids of the operators of a `DAG` to its set: they are
distinct and not above the last one in the set, so that the next id is a new one.  Each function keeps this under
a condition on what it is called with. -/

/-! ### Objects -/

/-- The operator objects, by address. -/
abbrev Objects := ℕ → DagOperator

/-- `op->id = id`. -/
def setId (objects : Objects) (v id : ℕ) : Objects := update objects v { objects v with id := id }

@[simp] theorem setId_self (objects : Objects) (v id : ℕ) : (setId objects v id v).id = id := by
  rw [setId, update_self]

theorem setId_of_ne (objects : Objects) {u v : ℕ} (h : u ≠ v) (id : ℕ) : setId objects v id u = objects u :=
  update_of_ne h _ _

/-- `DAG`: the graph, with the address of the inner DAG at each vertex, and `operator_ids_`. -/
structure Container where
  dag : PortedDag (Option ℕ)
  operatorIds : List ℕ

namespace Container

def empty : Container := ⟨⟨[], fun _ => none, [], ∅, ∅⟩, []⟩

variable (objects : Objects)

variable (c : Container)

/-- The ids of the operators, as `to_json` writes them. -/
def ids : List ℕ := c.dag.operators.map fun v => (objects v).id

/-- `last_operator_id()`. -/
def lastOperatorId : ℕ := c.operatorIds.foldr max 0

/-- The id that `AddOperator(op)` gives, in `size_t`. -/
def nextId : ℕ := (c.lastOperatorId + 1) % 2 ^ 64

/-- `AddOperator(op, id, properties)`, which asserts that the id was not given out before. -/
def addOperatorWithId (v id : ℕ) (innerDag : Option ℕ) :
    Option (Objects × Container) :=
  if id ∈ c.operatorIds then none
  else some (setId objects v id,
    ⟨{ c.dag with operators := c.dag.operators ++ [v], op := update c.dag.op v innerDag }, id :: c.operatorIds⟩)

/-- `AddOperator(op, properties)`. -/
def addOperator (v : ℕ) (innerDag : Option ℕ) : Option (Objects × Container) :=
  c.addOperatorWithId objects v c.nextId innerDag

/-- The operator that a vertex has after `ReplaceOperator`. -/
def swap (old new v : ℕ) : ℕ := if v = old then new else v

/-- `ReplaceOperator(old_op, new_op)`: the vertex keeps its flows and its inner DAG. -/
def replaceOperator (old new : ℕ) : Option Container :=
  if old ∈ c.dag.operators then
    some { c with dag := { c.dag with
      operators := c.dag.operators.map (swap old new)
      op := update c.dag.op new (c.dag.op old)
      flows := c.dag.flows.map (Flow.rename (swap old new)) } }
  else none

/-- `RemoveOperator(op)`. -/
def removeOperator (v : ℕ) : Option Container :=
  (c.dag.removeOperator v).map fun dag => { c with dag := dag }

/-- `MoveOperator(other_dag, op)` to another DAG. -/
def moveOperator (c other : Container) (v : ℕ) : Option (Objects × Container × Container) := do
  let c' ← c.removeOperator v
  let (objects, other) ← other.addOperator objects v (c.dag.op v)
  some (objects, c', other)

/-! ### What ids have to be like -/

/-- The inputs and outputs refer to operators of the DAG. -/
structure TipsInside (dag : PortedDag (Option ℕ)) : Prop where
  input : ∀ e ∈ dag.inputs.entries, e.2.op ∈ dag.operators
  output : ∀ e ∈ dag.outputs.entries, e.2.op ∈ dag.operators

/-- The ids of the operators are distinct, and the next id is that of no operator. -/
structure Consistent (objects : Objects) (c : Container) : Prop where
  distinct : (c.ids objects).Nodup
  fresh : c.nextId ∉ c.ids objects
  tips : TipsInside c.dag

/-- What is kept from one call to the next: no id is above the last one that was given out, which leaves room for
    another one. -/
structure Sound (objects : Objects) (c : Container) : Prop where
  distinct : (c.ids objects).Nodup
  below : ∀ id ∈ c.ids objects, id ≤ c.lastOperatorId
  room : c.lastOperatorId + 1 < 2 ^ 64
  tips : TipsInside c.dag

variable {objects objects' : Objects} {c c' : Container} {v : ℕ}

theorem Sound.nextId_eq (h : c.Sound objects) : c.nextId = c.lastOperatorId + 1 := Nat.mod_eq_of_lt h.room

theorem Sound.consistent (h : c.Sound objects) : c.Consistent objects where
  distinct := h.distinct
  fresh := by
    intro hmem
    have hle := h.below _ hmem
    rw [h.nextId_eq] at hle
    omega
  tips := h.tips

theorem sound_empty : empty.Sound objects :=
  ⟨.nil, nofun, show 0 + 1 < 2 ^ 64 by decide, ⟨nofun, nofun⟩⟩

theorem Sound.nodup (h : c.Sound objects) : c.dag.operators.Nodup := List.Nodup.of_map _ h.distinct

theorem ids_congr (h : ∀ v ∈ c.dag.operators, (objects' v).id = (objects v).id) : c.ids objects' = c.ids objects :=
  map_congr_left h

/-- Ids of other objects do not matter. -/
theorem Sound.congr (h : c.Sound objects) (hids : ∀ v ∈ c.dag.operators, (objects' v).id = (objects v).id) :
    c.Sound objects' := by
  have heq := ids_congr hids
  exact ⟨heq ▸ h.distinct, heq ▸ h.below, h.room, h.tips⟩

/-- Flows do not matter either. -/
theorem Sound.of_operators (h : c.Sound objects) {dag : PortedDag (Option ℕ)}
    (hops : dag.operators = c.dag.operators) (htips : TipsInside dag) :
    ({ c with dag := dag } : Container).Sound objects := by
  have heq : ({ c with dag := dag } : Container).ids objects = c.ids objects := by
    rw [ids, hops]
    rfl
  exact ⟨heq ▸ h.distinct, heq ▸ h.below, h.room, htips⟩

theorem TipsInside.mono {dag dag' : PortedDag (Option ℕ)} (h : TipsInside dag)
    (hinp : ∀ e ∈ dag'.inputs.entries, e ∈ dag.inputs.entries)
    (hout : ∀ e ∈ dag'.outputs.entries, e ∈ dag.outputs.entries)
    (hops : ∀ v ∈ dag.operators, v ∈ dag'.operators) : TipsInside dag' :=
  ⟨fun e he => hops _ (h.input e (hinp e he)), fun e he => hops _ (h.output e (hout e he))⟩

/-! ### Adding operators -/

variable {id old new : ℕ} {innerDag : Option ℕ}

theorem addOperatorWithId_eq_some :
    c.addOperatorWithId objects v id innerDag = some (objects', c') ↔ id ∉ c.operatorIds ∧
      objects' = setId objects v id ∧
      c' = ⟨{ c.dag with operators := c.dag.operators ++ [v], op := update c.dag.op v innerDag },
        id :: c.operatorIds⟩ := by
  unfold addOperatorWithId
  rw [Option.ite_none_left_eq_some, Option.some.injEq, Prod.mk.injEq, eq_comm (a := objects'), eq_comm (a := c')]

theorem ids_addOperatorWithId (hv : v ∉ c.dag.operators)
    (h : c.addOperatorWithId objects v id innerDag = some (objects', c')) :
    c'.ids objects' = c.ids objects ++ [id] := by
  obtain ⟨-, rfl, rfl⟩ := addOperatorWithId_eq_some.mp h
  show (c.dag.operators ++ [v]).map _ = _
  rw [map_append, map_singleton, setId_self]
  refine congrArg (· ++ [id]) (map_congr_left fun u hu => ?_)
  have hne : u ≠ v := fun heq => hv (heq ▸ hu)
  rw [setId_of_ne objects hne]

theorem lastOperatorId_addOperatorWithId (h : c.addOperatorWithId objects v id innerDag = some (objects', c')) :
    c'.lastOperatorId = max id c.lastOperatorId := by
  obtain ⟨-, -, rfl⟩ := addOperatorWithId_eq_some.mp h
  rfl

/-- An operator may be added under an id that no operator has. -/
theorem Sound.addOperatorWithId_iff (hsound : c.Sound objects) (hv : v ∉ c.dag.operators) (hid : id + 1 < 2 ^ 64)
    (h : c.addOperatorWithId objects v id innerDag = some (objects', c')) :
    c'.Sound objects' ↔ id ∉ c.ids objects := by
  have hids := ids_addOperatorWithId hv h
  have hlast := lastOperatorId_addOperatorWithId h
  have hroom := hsound.room
  constructor
  · intro hsound' hmem
    have hnd := hsound'.distinct
    rw [hids] at hnd
    exact (nodup_append.mp hnd).2.2 id hmem id mem_cons_self rfl
  · intro hnew
    refine ⟨?_, ?_, ?_, ?_⟩
    · rw [hids]
      refine nodup_append.mpr ⟨hsound.distinct, nodup_singleton id, fun a ha b hb heq => ?_⟩
      rw [mem_singleton] at hb
      exact hnew (hb ▸ heq ▸ ha)
    · intro i hi
      rw [hids] at hi
      rw [hlast]
      rcases mem_append.mp hi with hold | hnew
      · exact (hsound.below i hold).trans (le_max_right _ _)
      · rw [mem_singleton.mp hnew]
        exact le_max_left _ _
    · rw [hlast]
      omega
    · obtain ⟨-, -, rfl⟩ := addOperatorWithId_eq_some.mp h
      exact hsound.tips.mono (fun _ he => he) (fun _ he => he) fun u hu => mem_append_left _ hu

/-! ### Removing and replacing operators -/

theorem removeOperator_eq_some : c.removeOperator v = some c' ↔ (v ∈ c.dag.operators ∧ c.dag.Isolated v) ∧
    c' = { c with dag := { c.dag with operators := c.dag.operators.erase v } } := by
  unfold removeOperator
  rw [Option.map_eq_some_iff]
  constructor
  · rintro ⟨dag, hdag, rfl⟩
    obtain ⟨hin, rfl⟩ := PortedDag.removeOperator_eq_some.mp hdag
    exact ⟨hin, rfl⟩
  · rintro ⟨hin, rfl⟩
    exact ⟨_, PortedDag.removeOperator_eq_some.mpr ⟨hin, rfl⟩, rfl⟩

theorem Sound.removeOperator (hsound : c.Sound objects) (h : c.removeOperator v = some c') : c'.Sound objects := by
  obtain ⟨⟨-, -, hinp, hout⟩, rfl⟩ := removeOperator_eq_some.mp h
  have hsub : ((c.dag.operators.erase v).map fun u => (objects u).id).Sublist (c.ids objects) := erase_sublist.map _
  refine ⟨hsub.nodup hsound.distinct, fun id hid => hsound.below id (hsub.subset hid), hsound.room, ?_, ?_⟩
  · intro e he
    exact (mem_erase_of_ne (hinp e he)).mpr (hsound.tips.input e he)
  · intro e he
    exact (mem_erase_of_ne (hout e he)).mpr (hsound.tips.output e he)

/-- No input or output refers to the operator. -/
def Untipped {Op : Type} (dag : PortedDag Op) (v : ℕ) : Prop :=
  (∀ e ∈ dag.inputs.entries, e.2.op ≠ v) ∧ ∀ e ∈ dag.outputs.entries, e.2.op ≠ v

@[simp] theorem swap_old : swap old new old = new := if_pos rfl

theorem swap_of_ne {u : ℕ} (h : u ≠ old) : swap old new u = u := if_neg h

theorem swap_ne (hne : new ≠ old) (u : ℕ) : swap old new u ≠ old := by
  unfold Container.swap
  split
  · exact hne
  · assumption

theorem mem_map_swap {u : ℕ} {l : List ℕ} (hnew : new ∉ l) (hu : u ∈ l) : u ∈ l.map (swap old new) ↔ u ≠ old := by
  constructor
  · rintro hmem rfl
    obtain ⟨w, -, heq⟩ := mem_map.mp hmem
    have hne : new ≠ u := fun h => hnew (h ▸ hu)
    exact swap_ne hne w heq
  · intro hne
    exact mem_map.mpr ⟨u, hu, swap_of_ne hne⟩

/-- What tells the operators apart tells them apart after the replacement if the new one differs from the others. -/
theorem injOn_swap {ι : Type} {f : ℕ → ι} {l : List ℕ} (hinj : ∀ u ∈ l, ∀ v ∈ l, f u = f v → u = v)
    (hothers : ∀ u ∈ l, u ≠ old → f u ≠ f new) :
    ∀ u ∈ l, ∀ v ∈ l, f (swap old new u) = f (swap old new v) → u = v := by
  intro u hu v hv heq
  by_cases hu' : u = old <;> by_cases hv' : v = old
  · exact hu'.trans hv'.symm
  · rw [hu', swap_old, swap_of_ne hv'] at heq
    exact absurd heq.symm (hothers v hv hv')
  · rw [hv', swap_old, swap_of_ne hu'] at heq
    exact absurd heq (hothers u hu hu')
  · rw [swap_of_ne hu', swap_of_ne hv'] at heq
    exact hinj u hu v hv heq

/-- The ids are distinct after the replacement exactly if the new one is that of no other operator. -/
theorem Sound.nodup_swap_iff (hsound : c.Sound objects) (hold : old ∈ c.dag.operators) :
    ((c.dag.operators.map (swap old new)).map fun v => (objects v).id).Nodup ↔
      ∀ u ∈ c.dag.operators, u ≠ old → (objects u).id ≠ (objects new).id := by
  rw [map_map, nodup_map_iff_inj_on hsound.nodup]
  simp only [comp_apply]
  constructor
  · intro hinj u hu hne heq
    exact hne (hinj u hu old hold (by rw [swap_of_ne hne, swap_old, heq]))
  · exact injOn_swap fun u hu v hv => inj_on_of_nodup_map hsound.distinct hu hv

/-- `ReplaceOperator` takes the id of the new operator as it is: it has to be the id of no other operator and not above the
    last one, and nothing else may refer to the old operator. -/
theorem Sound.replaceOperator_iff (hsound : c.Sound objects) (hnew : new ∉ c.dag.operators)
    (h : c.replaceOperator old new = some c') :
    c'.Sound objects ↔ (∀ u ∈ c.dag.operators, u ≠ old → (objects u).id ≠ (objects new).id) ∧
      (objects new).id ≤ c.lastOperatorId ∧ Untipped c.dag old := by
  unfold replaceOperator at h
  rw [Option.ite_none_right_eq_some] at h
  obtain ⟨hold, heq⟩ := h
  cases heq
  have hmem : ∀ u ∈ c.dag.operators, swap old new u ∈ c.dag.operators.map (swap old new) := fun u => mem_map_of_mem
  constructor
  · intro hsound'
    refine ⟨(hsound.nodup_swap_iff hold).mp hsound'.distinct, ?_, fun e he => ?_, fun e he => ?_⟩
    · exact hsound'.below _ (mem_map_of_mem (by simpa using hmem old hold))
    · exact (mem_map_swap hnew (hsound.tips.input e he)).mp (hsound'.tips.input e he)
    · exact (mem_map_swap hnew (hsound.tips.output e he)).mp (hsound'.tips.output e he)
  · rintro ⟨hothers, hbelow, hinp, houtput⟩
    refine ⟨(hsound.nodup_swap_iff hold).mpr hothers, fun id hid => ?_, hsound.room, fun e he => ?_, fun e he => ?_⟩
    · obtain ⟨w, hw, rfl⟩ := mem_map.mp hid
      obtain ⟨u, hu, rfl⟩ : ∃ u ∈ c.dag.operators, swap old new u = w := mem_map.mp hw
      by_cases huo : u = old
      · rw [huo, swap_old]
        exact hbelow
      · rw [swap_of_ne huo]
        exact hsound.below _ (mem_map_of_mem hu)
    · exact (mem_map_swap hnew (hsound.tips.input e he)).mpr (hinp e he)
    · exact (mem_map_swap hnew (hsound.tips.output e he)).mpr (houtput e he)

end Container

end Jitq

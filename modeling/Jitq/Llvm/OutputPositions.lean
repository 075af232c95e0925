import Jitq.Llvm.Function
import Mathlib.Data.List.Nodup

namespace Jitq.Llvm.Function

open Ssa List Option

/-! # The fields of the result to which a function copies an argument

`ComputeOutputPositions` takes an argument for copied to a field when a `ret`, an `insertvalue` or a
`store` uses it, and finds out the field from the text: by the name of the `insertvalue`, or by counting the
stores up to the one whose target has the same name.  No path through the function is looked at.

* `retInstructionIds`, `computeOutputPositions` — the analysis, for the three conventions;
* `CopiesTo` — on every path the argument is the last that is written to the field;
* `CopyShape` — the functions for which counting in the text is right: one operand returned by all `ret`s,
  one chain of named `insertvalue`s, or one block that stores the fields in their order and returns;
* `computeOutputPositions_sound` — a position that is reported holds the argument whenever the function
  returns, if `CopiesTo` holds for it; with `CopyShape` it holds for all that are reported. -/

variable {S : Type} (F : Function S)

/-! ### The analysis -/

/-- The name of an operand in the text. -/
def operandName : Operand ℕ S → String
  | .arg a => F.argNames.getD a ""
  | .reg r => ((F.lines.find? (·.id == r)).map (·.name)).getD ""
  | .const _ => ""

/-- An `insertvalue` instruction. -/
structure Insert (S : Type) where
  id : ℕ
  name : String
  aggregate : Operand ℕ S
  value : Operand ℕ S
  index : ℕ

/-- The line as an `insertvalue`. -/
def insertOf (l : Line ℕ S) : Option (Insert S) :=
  match l.inst with
  | .insertValue o v index => some ⟨l.id, l.name, o, v, index⟩
  | _ => none

/-- The line as a `store`: what it stores, and where. -/
def storeOf (l : Line ℕ S) : Option (Operand ℕ S × Operand ℕ S) :=
  match l.inst with
  | .store v o => some (v, o)
  | _ => none

/-- The line as a `ret`. -/
def retOf (l : Line ℕ S) : Option (Option (Operand ℕ S)) :=
  match l.inst with
  | .ret o => some o
  | _ => none

/-- The `insertvalue`s of the function, in the order of the text. -/
def inserts : List (Insert S) := F.lines.filterMap insertOf

/-- The stores of the function, in the order of the text. -/
def stores : List (Operand ℕ S × Operand ℕ S) := F.lines.filterMap storeOf

/-- What the function returns at each of its `ret`s. -/
def rets : List (Option (Operand ℕ S)) := F.lines.filterMap retOf

/-- Note the name of an `insertvalue` under its index; missing names in front of it are empty. -/
def recordInsert (ids : List String) (x : Insert S) : List String :=
  (ids ++ replicate (x.index + 1 - ids.length) "").set x.index x.name

/-- `ret_instruction_ids_`, as the constructor fills it: the names of the `insertvalue`s by index, or the
    names of the targets of the stores in the order of the text. -/
def retInstructionIds : List String :=
  match F.retType with
  | .primitive => []
  | .struct _ => F.inserts.foldl recordInsert []
  | .callerPtr _ => F.stores.map fun st => F.operandName st.2

/-- The positions at which a name is noted. -/
def positionsOf (name : String) : List ℕ :=
  (range F.retInstructionIds.length).filter fun p => F.retInstructionIds[p]? == some name

/-- `Function::ComputeOutputPositionsPrimitive`: the loop leaves after the first user. -/
def computeOutputPositionsPrimitive (i : ℕ) : List ℕ :=
  match F.uses i with
  | [] => []
  | l :: _ => if (retOf l).isSome then [0] else []

/-- `Function::ComputeOutputPositionsStruct`. -/
def computeOutputPositionsStruct (i : ℕ) : List ℕ :=
  (F.uses i).flatMap fun l => ((insertOf l).map fun x => F.positionsOf x.name).getD []

/-- `Function::ComputeOutputPositionsCallerPtr`: the first argument is the pointer to the result. -/
def computeOutputPositionsCallerPtr (i : ℕ) : List ℕ :=
  (F.uses (i + 1)).flatMap fun l =>
    ((storeOf l).map fun st => F.positionsOf (F.operandName st.2)).getD []

/-- `Function::ComputeOutputPositions`. -/
def computeOutputPositions (i : ℕ) : List ℕ :=
  match F.retType with
  | .primitive => F.computeOutputPositionsPrimitive i
  | .struct _ => F.computeOutputPositionsStruct i
  | .callerPtr _ => F.computeOutputPositionsCallerPtr i

variable {l : Line ℕ S} {x : Insert S} {st : Operand ℕ S × Operand ℕ S}

section

variable {F}

theorem mem_positionsOf {name : String} {p : ℕ} :
    p ∈ F.positionsOf name ↔ F.retInstructionIds[p]? = some name := by
  simp only [positionsOf, mem_filter, mem_range, beq_iff_eq, and_iff_right_iff_imp]
  exact fun h => (List.getElem?_eq_some_iff.mp h).1

theorem insertOf_eq_some : insertOf l = some x ↔
    l.id = x.id ∧ l.name = x.name ∧ l.inst = .insertValue x.aggregate x.value x.index := by
  obtain ⟨id, name, inst⟩ := l
  obtain ⟨id', name', o, v, index⟩ := x
  cases inst <;> simp [insertOf]

theorem storeOf_eq_some {v o : Operand ℕ S} : storeOf l = some (v, o) ↔ l.inst = .store v o := by
  obtain ⟨id, name, inst⟩ := l
  cases inst <;> simp [storeOf]

theorem retOf_eq_some {o : Option (Operand ℕ S)} : retOf l = some o ↔ l.inst = .ret o := by
  obtain ⟨id, name, inst⟩ := l
  cases inst <;> simp [retOf]

theorem mem_inserts : x ∈ F.inserts ↔ ∃ l ∈ F.lines, insertOf l = some x := mem_filterMap

theorem mem_stores : st ∈ F.stores ↔ ∃ l ∈ F.lines, storeOf l = some st := mem_filterMap

theorem mem_rets {o : Option (Operand ℕ S)} : o ∈ F.rets ↔ ∃ l ∈ F.lines, l.inst = .ret o := by
  simp only [rets, mem_filterMap, retOf_eq_some]

end

/-! ### Where a field of the result gets its value -/

/-- Each register is assigned by one line. -/
def UniqueIds : Prop := (F.lines.map (·.id)).Nodup

/-- The instruction at a place of a block. -/
def lineAt (b k : ℕ) : Option (Line ℕ S) := F.body[b]?.bind (·[k]?)

/-- The operand is the address of a field of the result. -/
inductive FieldAddress : Operand ℕ S → ℕ → Prop
  | base : FieldAddress (.arg 0) 0
  | gep {l : Line ℕ S} {o : Operand ℕ S} {field index : ℕ} : l ∈ F.lines → l.inst = .gep o index →
      FieldAddress o field → FieldAddress (.reg l.id) (field + index)

/-- Only fields that the result has are set, as the types of LLVM ensure it. -/
def FieldsInRange : Prop :=
  match F.retType with
  | .primitive => True
  | .struct arity => ∀ x ∈ F.inserts, x.index < arity
  | .callerPtr arity => ∀ o k, F.FieldAddress o k → k < arity

/-- The operand is a structure whose field `p` is argument `a`: it was inserted there, and the
    `insertvalue`s since then set other fields. -/
inductive FieldInserted (a p : ℕ) : Operand ℕ S → Prop
  | insert {l : Line ℕ S} {o : Operand ℕ S} : l ∈ F.lines → l.inst = .insertValue o (.arg a) p →
      FieldInserted a p (.reg l.id)
  | keep {l : Line ℕ S} {o v : Operand ℕ S} {q : ℕ} : l ∈ F.lines → l.inst = .insertValue o v q → q ≠ p →
      FieldInserted a p o → FieldInserted a p (.reg l.id)
  | phi {l : Line ℕ S} {incoming : List (ℕ × Operand ℕ S)} : l ∈ F.lines → l.inst = .phi incoming →
      (∀ c ∈ incoming, FieldInserted a p c.2) → FieldInserted a p (.reg l.id)

/-- The line stores argument `a` to field `p` of the result. -/
def StoresTo (a p : ℕ) (l : Line ℕ S) : Prop := ∃ o, l.inst = .store (.arg a) o ∧ F.FieldAddress o p

/-- Along some path to a place, field `p` of the result may not hold argument `a`: it has not been stored
    there yet, or a store since then may have gone to the same field. -/
inductive MayMiss (a p : ℕ) : ℕ → ℕ → Prop
  | start : MayMiss a p 0 0
  | next {b k : ℕ} {l : Line ℕ S} : MayMiss a p b k → F.lineAt b k = some l → ¬ F.StoresTo a p l →
      MayMiss a p b (k + 1)
  | overwrite {b k : ℕ} {l : Line ℕ S} {st : Operand ℕ S × Operand ℕ S} : F.lineAt b k = some l →
      storeOf l = some st → ¬ F.StoresTo a p l → (∀ q, F.FieldAddress st.2 q → q = p) →
      MayMiss a p b (k + 1)
  | jump {b k target : ℕ} {l : Line ℕ S} : MayMiss a p b k → F.lineAt b k = some l →
      target ∈ l.inst.targets → MayMiss a p target 0

/-- Whichever path the function takes to a `ret`, argument `i` is the last that is written to field `p`. -/
def CopiesTo (i p : ℕ) : Prop :=
  match F.retType with
  | .primitive => ∀ o ∈ F.rets, o = some (.arg i)
  | .struct _ => ∀ o ∈ F.rets, ∃ o', o = some o' ∧ F.FieldInserted i p o'
  | .callerPtr _ => (∃ st ∈ F.stores, F.FieldAddress st.2 p) ∧
      ∀ b k l o, F.lineAt b k = some l → l.inst = .ret o → ¬ F.MayMiss (i + 1) p b k

/-! ### Functions for which the text shows the copies -/

/-- All `ret`s return one operand. -/
def SameReturns : Prop := ∀ o ∈ F.rets, ∀ o' ∈ F.rets, o = o'

/-- The `insertvalue`s form one chain in the order of the text: the first one starts from a constant, each
    other one from its predecessor, and every `ret` returns the last.  They have names, and set different
    fields. -/
structure InsertChain : Prop where
  names : (F.inserts.map (·.name)).Nodup
  named : ∀ x ∈ F.inserts, x.name ≠ ""
  fields : (F.inserts.map (·.index)).Nodup
  first : ∀ x, F.inserts[0]? = some x → ∃ v, x.aggregate = .const v
  next : ∀ k x y, F.inserts[k]? = some x → F.inserts[k + 1]? = some y → y.aggregate = .reg x.id
  last : ∀ o ∈ F.rets, ∃ x, F.inserts.getLast? = some x ∧ o = some (.reg x.id)

/-- All stores are in one block, which is the only one that returns and does so at its end.  They go to the
    fields of the result in their order, and no two targets have the same name. -/
structure StoresInOrder : Prop where
  names : (F.stores.map fun st => F.operandName st.2).Nodup
  targets : ∀ k st, F.stores[k]? = some st → F.FieldAddress st.2 k
  block : ∃ (b : ℕ) (block : List (Line ℕ S)), F.body[b]? = some block ∧
    F.stores = block.filterMap storeOf ∧
    ∀ (c j : ℕ) (l : Line ℕ S) o, F.lineAt c j = some l → l.inst = .ret o → c = b ∧ j + 1 = block.length

/-- The shape, for each of the three conventions. -/
def CopyShape : Prop :=
  match F.retType with
  | .primitive => F.SameReturns
  | .struct _ => F.InsertChain
  | .callerPtr _ => F.StoresInOrder

section

variable {F}

theorem UniqueIds.eq (h : F.UniqueIds) {l l' : Line ℕ S} (hl : l ∈ F.lines) (hl' : l' ∈ F.lines)
    (hid : l.id = l'.id) : l = l' := inj_on_of_nodup_map h hl hl' hid

/-! ### Returned values -/

variable {mem : ℕ → Val S} {base : ℕ} {t : List (Val S)}

/-- What a call returns is the value of the operand of some `ret`. -/
theorem returns_operand {r : Result S} (h : Fuel.Returns (F.call base t mem) r) :
    ∃ o ∈ F.rets, ∃ regs, o.map (eval (F.callArgs base t) regs) = r.value.map some := by
  refine run_invariant (P := fun _ => True)
    (Q := fun r => ∃ o ∈ F.rets, ∃ regs, o.map (eval (F.callArgs base t) regs) = r.value.map some)
    trivial (fun _ _ _ _ _ _ => trivial) ?_ h
  intro s l r _ hl hexec
  obtain ⟨o, hinst, hval, -⟩ := Inst.exec_inr_cases hexec
  exact ⟨o, mem_rets.mpr ⟨l, State.mem_flatten_of_line? hl, hinst⟩, s.regs, hval⟩

variable {i p : ℕ}

theorem mem_rets_of_primitive (hp : p ∈ F.computeOutputPositionsPrimitive i) :
    p = 0 ∧ some (.arg i) ∈ F.rets := by
  unfold computeOutputPositionsPrimitive at hp
  split at hp
  · cases hp
  · next l rest huses =>
    split at hp
    · next hret =>
      obtain ⟨hl, harg⟩ := F.mem_uses.mp (by rw [huses]; exact mem_cons_self : l ∈ F.uses i)
      obtain ⟨o, ho⟩ := isSome_iff_exists.mp hret
      have hinst := retOf_eq_some.mp ho
      -- the argument is an operand of the `ret`, so it is the operand
      obtain rfl : o = some (.arg i) := by
        rw [hinst] at harg
        exact mem_toList.mp harg
      exact ⟨by simpa using hp, mem_rets.mpr ⟨l, hl, hinst⟩⟩
    · cases hp

/-! ### Inserted values -/

/-- A noted name is the name of an `insertvalue` with that index, or was never set. -/
theorem foldl_recordInsert {xs : List (Insert S)} {ids : List String} {p : ℕ} {name : String}
    (h : (xs.foldl recordInsert ids)[p]? = some name) :
    ids[p]? = some name ∨ name = "" ∨ ∃ x ∈ xs, x.index = p ∧ x.name = name := by
  induction xs generalizing ids with
  | nil => exact .inl h
  | cons x xs ih =>
    rcases ih h with hids | hempty | ⟨y, hy, hyp⟩
    · by_cases hx : x.index = p
      · subst hx
        have hlt : x.index < (ids ++ replicate (x.index + 1 - ids.length) "").length := by
          simp only [length_append, length_replicate]
          omega
        rw [recordInsert, getElem?_set_self hlt] at hids
        exact .inr (.inr ⟨x, mem_cons_self, rfl, some.inj hids⟩)
      · rw [recordInsert, getElem?_set_ne hx, getElem?_append] at hids
        split at hids
        · exact .inl hids
        · -- a name that the resizing filled in
          exact .inr (.inl (eq_of_mem_replicate (mem_of_getElem? hids)))
    · exact .inr (.inl hempty)
    · exact .inr (.inr ⟨y, mem_cons_of_mem _ hy, hyp⟩)

/-- The names are noted up to the greatest index. -/
theorem length_foldl_recordInsert {xs : List (Insert S)} {arity : ℕ} {ids : List String}
    (hids : ids.length ≤ arity) (hxs : ∀ x ∈ xs, x.index < arity) :
    (xs.foldl recordInsert ids).length ≤ arity := by
  induction xs generalizing ids with
  | nil => exact hids
  | cons x xs ih =>
    refine ih ?_ fun y hy => hxs y (mem_cons_of_mem _ hy)
    have hx := hxs x mem_cons_self
    simp only [recordInsert, length_set, length_append, length_replicate]
    omega

/-- An output position has the name of an `insertvalue` that uses the argument. -/
theorem exists_insert_of_position {arity : ℕ} (hret : F.retType = .struct arity)
    (hp : p ∈ F.computeOutputPositionsStruct i) : ∃ x ∈ F.inserts,
      (.arg i = x.aggregate ∨ .arg i = x.value) ∧
        (F.inserts.foldl recordInsert [])[p]? = some x.name := by
  obtain ⟨l, hl, hpos⟩ := mem_flatMap.mp hp
  obtain ⟨hmem, harg⟩ := F.mem_uses.mp hl
  cases hinsert : insertOf l with
  | none => simp [hinsert] at hpos
  | some x =>
    refine ⟨x, mem_inserts.mpr ⟨l, hmem, hinsert⟩, ?_, ?_⟩
    · rw [(insertOf_eq_some.mp hinsert).2.2] at harg
      exact mem_pair.mp harg
    · have hname := mem_positionsOf.mp (by simpa [hinsert] using hpos : p ∈ F.positionsOf x.name)
      rwa [retInstructionIds, hret] at hname

section Inserted

variable {args : ℕ → Option (Val S)} {a : ℕ}

/-- The registers that are structures with the argument in the field hold such structures. -/
def Inserted (F : Function S) (args : ℕ → Option (Val S)) (a p : ℕ) (regs : ℕ → Option (Val S)) : Prop :=
  ∀ o, F.FieldInserted a p o → ∀ v, eval args regs o = some v →
    ∃ fields, v = .struct fields ∧ fields[p]? = args a

theorem Inserted.step (hids : F.UniqueIds) {s s' : State S} (hregs : Inserted F args a p s.regs)
    (hentry : Inserted F args a p s.entry) (hl : s.line? F.body = some l)
    (hexec : l.inst.exec args l.id s = some (.inl s')) :
    Inserted F args a p s'.regs ∧ Inserted F args a p s'.entry := by
  constructor
  · intro o ho v hv
    -- the operand keeps its value, or the line computes it
    have hcases : ∀ l' ∈ F.lines, o = .reg l'.id → eval args s.regs o = some v ∨
        l'.inst.value args s = some v := by
      rintro l' hl' rfl
      rcases Inst.regs_of_exec hexec hv with hold | ⟨hid, hnew⟩
      · exact .inl hold
      · obtain rfl := hids.eq hl' (State.mem_flatten_of_line? hl) hid
        exact .inr hnew
    have hinsert : ∀ {o' w : Operand ℕ S} {q : ℕ} {l' : Line ℕ S}, l'.inst = .insertValue o' w q →
        l'.inst.value args s = some v → ∃ x fields, eval args s.regs w = some x ∧
          eval args s.regs o' = some (.struct fields) ∧ q < fields.length ∧
            v = .struct (fields.set q x) := by
      intro o' w q l' hinst hval
      rw [hinst] at hval
      obtain ⟨x, hx, hrest⟩ := bind_eq_some_iff.mp hval
      obtain ⟨y, hy, hins⟩ := bind_eq_some_iff.mp hrest
      obtain ⟨fields, rfl, hlt, rfl⟩ := Val.insert_eq_some hins
      exact ⟨x, fields, hx, hy, hlt, rfl⟩
    cases id ho with
    | @insert l' o' hl' hinst =>
      rcases hcases l' hl' rfl with hold | hnew
      · exact hregs _ ho v hold
      · obtain ⟨x, fields, hx, -, hlt, rfl⟩ := hinsert hinst hnew
        refine ⟨_, rfl, ?_⟩
        rw [getElem?_set_self hlt]
        exact hx.symm
    | @keep l' o' w q hl' hinst hne ho' =>
      rcases hcases l' hl' rfl with hold | hnew
      · exact hregs _ ho v hold
      · obtain ⟨x, fields, -, hy, -, rfl⟩ := hinsert hinst hnew
        obtain ⟨fields', heq, hfield⟩ := hregs _ ho' _ hy
        obtain rfl := Val.struct.inj heq
        refine ⟨_, rfl, ?_⟩
        rwa [getElem?_set_ne hne]
    | @phi l' incoming hl' hinst hall =>
      rcases hcases l' hl' rfl with hold | hnew
      · exact hregs _ ho v hold
      · rw [hinst] at hnew
        obtain ⟨c, hc, hv⟩ := bind_eq_some_iff.mp hnew
        exact hentry _ (hall c (mem_of_find?_eq_some hc)) v hv
  · rcases Inst.exec_inl_cases hexec with ⟨v, -, rfl⟩ | ⟨_, _, _, _, -, -, -, rfl⟩ | ⟨target, -, rfl⟩
    · exact hentry
    · exact hentry
    · exact hregs

theorem output_of_inserted {arity : ℕ} (hret : F.retType = .struct arity) (hids : F.UniqueIds)
    (hrets : ∀ o ∈ F.rets, ∃ o', o = some o' ∧ F.FieldInserted i p o') {r : Result S}
    (hr : Fuel.Returns (F.call base t mem) r) : F.output base r p = F.callArgs base t i := by
  refine run_invariant (Q := fun r => F.output base r p = F.callArgs base t i)
    (P := fun s => Inserted F (F.callArgs base t) i p s.regs ∧
      Inserted F (F.callArgs base t) i p s.entry) ⟨?_, ?_⟩
    (fun s s' l hs hl hexec => hs.1.step hids hs.2 hl hexec) ?_ hr
  · rintro o (⟨-, -⟩ | ⟨-, -⟩ | ⟨-, -⟩) v hv <;> cases hv
  · rintro o (⟨-, -⟩ | ⟨-, -⟩ | ⟨-, -⟩) v hv <;> cases hv
  · intro s l r hs hl hexec
    obtain ⟨o, hinst, heval, -⟩ := Inst.exec_inr_cases hexec
    obtain ⟨o', rfl, ho'⟩ := hrets o (mem_rets.mpr ⟨l, State.mem_flatten_of_line? hl, hinst⟩)
    cases hv : r.value with
    | none => simp [hv] at heval
    | some v =>
      obtain ⟨fields, rfl, hfield⟩ := hs.1 o' ho' v (by simpa [hv] using heval)
      simp only [output, hret, hv]
      exact hfield

end Inserted

namespace InsertChain

variable (h : F.InsertChain)

include h

theorem aggregate_ne_arg (hx : x ∈ F.inserts) (i : ℕ) : x.aggregate ≠ .arg i := by
  obtain ⟨k, hk⟩ := mem_iff_getElem?.mp hx
  intro harg
  cases k with
  | zero =>
    obtain ⟨v, hv⟩ := h.first x hk
    exact nomatch harg.symm.trans hv
  | succ k =>
    have hlt : k + 1 < F.inserts.length := (List.getElem?_eq_some_iff.mp hk).1
    exact nomatch harg.symm.trans (h.next k _ x (getElem?_eq_getElem (Nat.lt_of_succ_lt hlt)) hk)

/-- An output position is the index of an `insertvalue` of the argument. -/
theorem insert_of_position {arity : ℕ} (hret : F.retType = .struct arity)
    (hp : p ∈ F.computeOutputPositionsStruct i) : ∃ x ∈ F.inserts, x.index = p ∧ x.value = .arg i := by
  obtain ⟨x, hx, harg, hname⟩ := exists_insert_of_position hret hp
  rcases foldl_recordInsert hname with hnil | hempty | ⟨y, hy, hidx, hname⟩
  · simp at hnil
  · exact absurd hempty (h.named x hx)
  · obtain rfl : y = x := inj_on_of_nodup_map h.names hy hx hname
    exact ⟨y, hy, hidx, (harg.resolve_left (h.aggregate_ne_arg hy i).symm).symm⟩

/-- From the `insertvalue` of the argument on, the structures of the chain have it in its field. -/
theorem fieldInserted {k j : ℕ} {y : Insert S} (hx : F.inserts[k]? = some x) (hval : x.value = .arg i)
    (hkj : k ≤ j) (hy : F.inserts[j]? = some y) : F.FieldInserted i x.index (.reg y.id) := by
  induction j, hkj using Nat.le_induction generalizing y with
  | base =>
    obtain rfl : x = y := some.inj (hx.symm.trans hy)
    obtain ⟨l, hl, hinsert⟩ := mem_inserts.mp (mem_of_getElem? hx)
    obtain ⟨hid, -, hinst⟩ := insertOf_eq_some.mp hinsert
    rw [← hid]
    exact .insert hl (hval ▸ hinst)
  | succ j hkj ih =>
    have hj : j + 1 < F.inserts.length := (List.getElem?_eq_some_iff.mp hy).1
    have hprev := getElem?_eq_getElem (Nat.lt_of_succ_lt hj)
    obtain ⟨l, hl, hinsert⟩ := mem_inserts.mp (mem_of_getElem? hy)
    obtain ⟨hid, -, hinst⟩ := insertOf_eq_some.mp hinsert
    rw [← hid]
    refine .keep hl hinst (fun hidx => ?_) (h.next j _ y hprev hy ▸ ih hprev)
    -- different `insertvalue`s set different fields
    have hsame : j + 1 = k := (getElem?_inj (by simpa using hj) h.fields).mp
      (by rw [getElem?_map, getElem?_map, hy, hx, map_some, map_some, hidx])
    omega

theorem copies {arity : ℕ} (hret : F.retType = .struct arity)
    (hp : p ∈ F.computeOutputPositionsStruct i) :
    ∀ o ∈ F.rets, ∃ o', o = some o' ∧ F.FieldInserted i p o' := by
  obtain ⟨x, hmem, rfl, hval⟩ := h.insert_of_position hret hp
  obtain ⟨k, hx⟩ := mem_iff_getElem?.mp hmem
  have hk : k < F.inserts.length := (List.getElem?_eq_some_iff.mp hx).1
  intro o ho
  obtain ⟨y, hy, rfl⟩ := h.last o ho
  rw [getLast?_eq_getElem?] at hy
  exact ⟨_, rfl, h.fieldInserted hx hval (by omega) hy⟩

end InsertChain

/-! ### Stored values -/

theorem FieldAddress.arg {i k : ℕ} (h : F.FieldAddress (.arg i) k) : i = 0 := by
  cases h
  rfl

section Stored

variable {args : ℕ → Option (Val S)} {a : ℕ}

/-- The addresses of fields are computed from the pointer to the result, and wherever the argument cannot
    be missing the field holds it. -/
structure Stored (F : Function S) (args : ℕ → Option (Val S)) (base a p : ℕ) (s : State S) : Prop where
  address : ∀ o k, F.FieldAddress o k → ∀ v, eval args s.regs o = some v → v = .ptr (base + k)
  stored : ¬ F.MayMiss a p s.block s.index → some (s.mem (base + p)) = args a

theorem Stored.address_step (hids : F.UniqueIds) {s s' : State S} (hs : Stored F args base a p s)
    (hl : s.line? F.body = some l) (hexec : l.inst.exec args l.id s = some (.inl s')) :
    ∀ o k, F.FieldAddress o k → ∀ v, eval args s'.regs o = some v → v = .ptr (base + k) := by
  intro o k ho v hv
  cases ho with
  | base => exact hs.address _ _ .base v hv
  | @gep l' o field index hl' hinst ho =>
    rcases Inst.regs_of_exec hexec hv with hold | ⟨hid, hnew⟩
    · exact hs.address _ _ (.gep hl' hinst ho) v hold
    · obtain rfl := hids.eq hl' (State.mem_flatten_of_line? hl) hid
      rw [hinst] at hnew
      obtain ⟨x, hx, hfield⟩ := bind_eq_some_iff.mp hnew
      obtain rfl := hs.address _ _ ho x hx
      rw [← Nat.add_assoc]
      exact (some.inj hfield).symm

theorem Stored.step (hids : F.UniqueIds) {s s' : State S} (hs : Stored F args base a p s)
    (hl : s.line? F.body = some l) (hexec : l.inst.exec args l.id s = some (.inl s')) :
    Stored F args base a p s' := by
  refine ⟨hs.address_step hids hl hexec, ?_⟩
  have hline : F.lineAt s.block s.index = some l := hl
  rcases Inst.exec_inl_cases hexec with
    ⟨v, hv, rfl⟩ | ⟨o, o', v, c, hinst, hv, hc, rfl⟩ | ⟨target, htgt, rfl⟩
  · -- an instruction with a value stores nothing
    intro hmiss
    refine hs.stored fun hmay => hmiss (hmay.next hline ?_)
    rintro ⟨o, hinst, -⟩
    rw [hinst] at hv
    cases hv
  · intro hmiss
    show some (Function.update s.mem c v (base + p)) = args a
    by_cases hstores : F.StoresTo a p l
    · obtain ⟨o'', hinst', haddr⟩ := hstores
      obtain ⟨rfl, rfl⟩ := Inst.store.inj (hinst.symm.trans hinst')
      obtain rfl : c = base + p := by simpa using hs.address _ _ haddr _ hc
      rw [Function.update_self]
      exact hv.symm
    · -- the store goes to another field
      have hother : ∃ q, F.FieldAddress o' q ∧ q ≠ p := by
        by_contra hnone
        refine hmiss (.overwrite hline (storeOf_eq_some.mpr hinst) hstores fun q hq => ?_)
        by_contra hne
        exact hnone ⟨q, hq, hne⟩
      obtain ⟨q, haddr, hne⟩ := hother
      obtain rfl : c = base + q := by simpa using hs.address _ _ haddr _ hc
      rw [Function.update_of_ne (by omega)]
      exact hs.stored fun hmay => hmiss (hmay.next hline hstores)
  · exact fun hmiss => hs.stored fun hmay => hmiss (hmay.jump hline htgt)

theorem output_of_stored {arity : ℕ} (hret : F.retType = .callerPtr arity) (hids : F.UniqueIds)
    (hrets : ∀ b k l o, F.lineAt b k = some l → l.inst = .ret o → ¬ F.MayMiss (i + 1) p b k)
    {r : Result S} (hr : Fuel.Returns (F.call base t mem) r) :
    F.output base r p = F.callArgs base t (i + 1) := by
  have hbase : F.callArgs base t 0 = some (.ptr base) := by
    unfold callArgs
    rw [hret]
  refine run_invariant (P := Stored F (F.callArgs base t) base (i + 1) p)
    (Q := fun r => F.output base r p = F.callArgs base t (i + 1)) ⟨fun o k ho v hv => ?_, ?_⟩
    (fun s s' l hs hl hexec => hs.step hids hl hexec) (fun s l r hs hl hexec => ?_) hr
  · cases ho with
    | base => exact some.inj (hv.symm.trans hbase)
    | gep => cases hv
  · exact fun hmiss => absurd .start hmiss
  · obtain ⟨o, hinst, -, hmem⟩ := Inst.exec_inr_cases hexec
    simp only [output, hret, hmem]
    exact hs.stored (hrets _ _ l o hl hinst)

end Stored

/-- The number of stores of a block in front of an instruction. -/
def storesBefore (block : List (Line ℕ S)) (index : ℕ) : ℕ := ((block.take index).filterMap storeOf).length

theorem storesBefore_succ {block : List (Line ℕ S)} {index : ℕ} (hl : block[index]? = some l) :
    storesBefore block (index + 1) = storesBefore block index + (storeOf l).toList.length := by
  rw [storesBefore, storesBefore, take_add_one, hl, filterMap_append, length_append]
  cases hst : storeOf l <;> simp [hst]

/-- The store at an instruction has the number of the stores in front of it. -/
theorem getElem?_storesBefore {block : List (Line ℕ S)} {index : ℕ}
    (hl : block[index]? = some l) (hst : storeOf l = some st) :
    (block.filterMap storeOf)[storesBefore block index]? = some st := by
  obtain ⟨hlt, rfl⟩ := List.getElem?_eq_some_iff.mp hl
  have hsplit : block.filterMap storeOf =
      (block.take index).filterMap storeOf ++ (block.drop index).filterMap storeOf := by
    rw [← filterMap_append, take_append_drop]
  rw [hsplit, storesBefore, getElem?_append_right le_rfl, Nat.sub_self, drop_eq_getElem_cons hlt,
    filterMap_cons_some hst]
  rfl

namespace StoresInOrder

variable (h : F.StoresInOrder)

include h

/-- An output position is the number of a store of the argument. -/
theorem store_of_position {arity : ℕ} (hret : F.retType = .callerPtr arity)
    (hp : p ∈ F.computeOutputPositionsCallerPtr i) : ∃ o, F.stores[p]? = some (.arg (i + 1), o) := by
  obtain ⟨l, hl, hpos⟩ := mem_flatMap.mp hp
  obtain ⟨hmem, harg⟩ := F.mem_uses.mp hl
  cases hstore : storeOf l with
  | none => simp [hstore] at hpos
  | some st =>
    obtain ⟨v, o⟩ := st
    obtain ⟨q, hq⟩ := mem_iff_getElem?.mp (mem_stores.mpr ⟨l, hmem, hstore⟩)
    have hids : (F.stores.map fun st => F.operandName st.2)[p]? = some (F.operandName o) := by
      have hname := mem_positionsOf.mp
        (by simpa [hstore] using hpos : p ∈ F.positionsOf (F.operandName o))
      rwa [retInstructionIds, hret] at hname
    -- the names of the targets are distinct, so the number found by name is the number of this store
    obtain rfl : p = q := (getElem?_inj (List.getElem?_eq_some_iff.mp hids).1 h.names).mp
      (by rw [hids, getElem?_map, hq, map_some])
    refine ⟨o, ?_⟩
    rw [storeOf_eq_some.mp hstore] at harg
    rcases mem_pair.mp harg with hval | htgt
    · rw [hval]
      exact hq
    · have haddr := h.targets p _ hq
      rw [← htgt] at haddr
      exact absurd haddr.arg (by omega)

/-- In the returning block the argument may be missing only up to its store. -/
theorem storesBefore_le {a b : ℕ} {o : Operand ℕ S} {block : List (Line ℕ S)}
    (hblock : F.body[b]? = some block) (hstores : F.stores = block.filterMap storeOf)
    (hp : F.stores[p]? = some (.arg a, o)) {c k : ℕ} (hmay : F.MayMiss a p c k) (hc : c = b) :
    storesBefore block k ≤ p := by
  have hline {k : ℕ} {l : Line ℕ S} (hl : F.lineAt b k = some l) : block[k]? = some l := by
    rwa [lineAt, hblock, bind_some] at hl
  have hnum {k : ℕ} {l : Line ℕ S} {st : Operand ℕ S × Operand ℕ S} (hl : F.lineAt b k = some l)
      (hst : storeOf l = some st) : F.stores[storesBefore block k]? = some st := by
    rw [hstores]
    exact getElem?_storesBefore (hline hl) hst
  -- the store with the number of the field is the one of the argument
  have hcopies {k : ℕ} {l : Line ℕ S} {st : Operand ℕ S × Operand ℕ S} (hl : F.lineAt b k = some l)
      (hst : storeOf l = some st) (heq : storesBefore block k = p) : F.StoresTo a p l := by
    have hsame := hnum hl hst
    rw [heq, hp] at hsame
    obtain rfl := some.inj hsame
    exact ⟨o, storeOf_eq_some.mp hst, h.targets p _ hp⟩
  induction hmay with
  | start => simp [storesBefore]
  | @next c k l _ hl hnot ih =>
    subst hc
    rw [storesBefore_succ (hline hl)]
    cases hst : storeOf l with
    | none => exact ih rfl
    | some st =>
      have hne : storesBefore block k ≠ p := fun heq => hnot (hcopies hl hst heq)
      exact Nat.lt_of_le_of_ne (ih rfl) hne
  | @overwrite c k l st hl hst hnot hfield =>
    subst hc
    exact absurd (hcopies hl hst (hfield _ (h.targets _ _ (hnum hl hst)))) hnot
  | jump => simp [storesBefore]

theorem copies {arity : ℕ} (hret : F.retType = .callerPtr arity)
    (hp : p ∈ F.computeOutputPositionsCallerPtr i) : (∃ st ∈ F.stores, F.FieldAddress st.2 p) ∧
      ∀ b k l o, F.lineAt b k = some l → l.inst = .ret o → ¬ F.MayMiss (i + 1) p b k := by
  obtain ⟨o, hstore⟩ := h.store_of_position hret hp
  obtain ⟨b, block, hblock, hstores, hrets⟩ := h.block
  refine ⟨⟨_, mem_of_getElem? hstore, h.targets p _ hstore⟩, fun c k l o' hl hinst hmay => ?_⟩
  obtain ⟨rfl, hend⟩ := hrets c k l o' hl hinst
  have hle := h.storesBefore_le hblock hstores hstore hmay rfl
  -- the `ret` is at the end of the block, so all stores are before it
  have hall : storesBefore block k = F.stores.length := by
    have hline : block[k]? = some l := by rwa [lineAt, hblock, bind_some] at hl
    have hnone : storeOf l = none := by rw [storeOf, hinst]
    calc storesBefore block k
        = storesBefore block (k + 1) := by rw [storesBefore_succ hline, hnone]; rfl
      _ = F.stores.length := by rw [hend, hstores, storesBefore, take_length]
  have hlt : p < F.stores.length := (List.getElem?_eq_some_iff.mp hstore).1
  omega

end StoresInOrder

end

/-! ### Soundness -/

/-- **Output positions.**  A position that is reported for an argument is a field of the result, and holds
    the argument whenever the function returns, if the function copies the argument there on every path.
    A function of the right shape does so for all positions that are reported. -/
theorem computeOutputPositions_sound (hids : F.UniqueIds) (hrange : F.FieldsInRange) :
    (∀ i p, p ∈ F.computeOutputPositions i → F.CopiesTo i p → p < F.retType.numOutputs ∧
      ∀ base t mem r, Fuel.Returns (F.call base t mem) r → F.output base r p = t[i]?) ∧
    (F.CopyShape → ∀ i p, p ∈ F.computeOutputPositions i → F.CopiesTo i p) := by
  refine ⟨fun i p hp hcopies => ?_, fun hshape i p hp => ?_⟩
  · have hargs (base t) := F.callArgs_offset base t i
    unfold CopiesTo at hcopies
    unfold FieldsInRange at hrange
    unfold computeOutputPositions at hp
    cases hret : F.retType with
    | primitive =>
      rw [hret] at hcopies hp hargs
      obtain ⟨rfl, -⟩ := mem_rets_of_primitive hp
      refine ⟨Nat.one_pos, fun base t mem r hr => ?_⟩
      obtain ⟨o, ho, regs, heval⟩ := returns_operand hr
      obtain rfl := hcopies o ho
      rw [← hargs base t]
      cases hv : r.value with
      | none => simp [hv] at heval
      | some v =>
        simp only [output, hret, hv]
        show some v = F.callArgs base t i
        simpa [hv, eval] using heval.symm
    | struct arity =>
      rw [hret] at hcopies hp hargs hrange
      obtain ⟨x, -, -, hname⟩ := exists_insert_of_position hret hp
      refine ⟨?_, fun base t mem r hr => (output_of_inserted hret hids hcopies hr).trans (hargs base t)⟩
      exact (List.getElem?_eq_some_iff.mp hname).1.trans_le
        (length_foldl_recordInsert (Nat.zero_le _) hrange)
    | callerPtr arity =>
      rw [hret] at hcopies hp hargs hrange
      obtain ⟨⟨st, -, haddr⟩, hrets⟩ := hcopies
      exact ⟨hrange _ _ haddr,
        fun base t mem r hr => (output_of_stored hret hids hrets hr).trans (hargs base t)⟩
  · unfold CopyShape at hshape
    unfold computeOutputPositions at hp
    unfold CopiesTo
    cases hret : F.retType with
    | primitive =>
      rw [hret] at hshape hp
      exact fun o ho => hshape o ho _ (mem_rets_of_primitive hp).2
    | struct arity =>
      rw [hret] at hshape hp
      exact hshape.copies hret hp
    | callerPtr arity =>
      rw [hret] at hshape hp
      exact hshape.copies hret hp

/-- The map that swaps two fields.  It stores field `field` of the result first, then field `field'`. -/
def swapFields (value value' field field' : ℕ) : Function ℕ where
  retType := .callerPtr 2
  argNames := [".1", ".2", ".3"]
  body := [[⟨0, ".5", .gep (.arg 0) field⟩, ⟨1, "", .store (.arg value) (.reg 0)⟩,
    ⟨2, ".7", .gep (.arg 0) field'⟩, ⟨3, "", .store (.arg value') (.reg 2)⟩,
    ⟨4, "", .ret none⟩]]

theorem swapFields_fieldAddress {value value' field field' : ℕ} {o : Operand ℕ ℕ} {k : ℕ}
    (h : (swapFields value value' field field').FieldAddress o k) : k = 0 ∨ k = field ∨ k = field' := by
  cases h with
  | base => exact .inl rfl
  | @gep l o start index hl hinst ho =>
    simp only [lines, swapFields, flatten_cons, flatten_nil, append_nil, mem_cons, not_mem_nil,
      or_false] at hl
    rcases hl with rfl | rfl | rfl | rfl | rfl <;> cases hinst <;> cases ho <;> simp

/-- The map that stores the fields in order is reported rightly. -/
theorem computeOutputPositions_sound_swapFields :
    (swapFields 2 1 0 1).computeOutputPositions 0 = [1] ∧
      ∀ base t mem r, Fuel.Returns ((swapFields 2 1 0 1).call base t mem) r →
        (swapFields 2 1 0 1).output base r 1 = t[0]? := by
  have hposs : (swapFields 2 1 0 1).computeOutputPositions 0 = [1] := by decide
  have hmem : 1 ∈ (swapFields 2 1 0 1).computeOutputPositions 0 := by rw [hposs]; simp
  have hshape : (swapFields 2 1 0 1).StoresInOrder :=
    { names := by decide
      targets := by
        intro k st hst
        match k with
        | 0 =>
          cases hst
          show FieldAddress _ (.reg 0) (0 + 0)
          exact .gep (l := ⟨0, ".5", .gep (.arg 0) 0⟩) mem_cons_self rfl .base
        | 1 =>
          cases hst
          show FieldAddress _ (.reg 2) (0 + 1)
          exact .gep (l := ⟨2, ".7", .gep (.arg 0) 1⟩)
            (mem_cons_of_mem _ (mem_cons_of_mem _ mem_cons_self)) rfl .base
        | k + 2 => cases hst
      block := by
        refine ⟨0, _, rfl, rfl, fun c j l o hl hret => ?_⟩
        match c with
        | 0 =>
          match j with
          | 0 | 1 | 2 | 3 => obtain rfl := Option.some.inj hl; cases hret
          | 4 => exact ⟨rfl, rfl⟩
          | j + 5 => cases hl
        | c + 1 => exact nomatch hl }
  obtain ⟨hsound, hcopies⟩ := (swapFields 2 1 0 1).computeOutputPositions_sound
    (show List.Nodup _ by decide) fun o k ho => by
      rcases swapFields_fieldAddress ho with rfl | rfl | rfl <;> decide
  exact ⟨hposs, (hsound 0 1 hmem (hcopies hshape 0 1 hmem)).2⟩

/-- When the compiler puts the store to field 1 first, the analysis takes it for the store to field 0: the
    argument is said to be copied there, but field 0 holds the other argument. -/
theorem swapFields_stores_out_of_order : 0 ∈ (swapFields 1 2 1 0).computeOutputPositions 0 ∧
    ∃ r, Fuel.Returns ((swapFields 1 2 1 0).call 0 [.scalar 7, .scalar 8] fun _ => .undef) r ∧
      (swapFields 1 2 1 0).output 0 r 0 = some (.scalar 8) := by
  refine ⟨by decide, ⟨none, Function.update (Function.update (fun _ => .undef) 1 (.scalar 7)) 0
    (.scalar 8)⟩, ?_, ?_⟩
  · refine Fuel.Iterates.returns ?_
    refine .step (Fuel.Returns.pure _) (.step (Fuel.Returns.pure _) (.step (Fuel.Returns.pure _) ?_))
    exact .step (Fuel.Returns.pure _) (.done (Fuel.Returns.pure _))
  · rfl

end Jitq.Llvm.Function

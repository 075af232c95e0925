import Jitq.Lib.Ssa

namespace Jitq.Llvm

open Ssa

/-! # User functions in LLVM IR

The functions of filters and maps reach the optimizer as LLVM IR, and `llvm_helpers::Function` answers two
questions about them by looking at the users of an argument: whether the function reads the argument, and to
which fields of the result it copies the argument.  The IR is modelled by `Ssa.Program`; arguments are
numbered from 0.

* `Function` — the body and the convention by which the result is returned;
* `computeIsArgumentRead`, `computeOutputPositions` — the two analyses;
* `Noninterfering` — the result does not depend on an argument;
* `unreadArgument_noninterfering` — an argument that is not read does not influence the result, provided
  that it is not stored, inserted or returned either: such uses count as no reads. -/

variable {S : Type}

/-- How a function returns its result: as a value, as a structure with `arity` fields, or by storing these
    fields through a pointer that is its first argument. -/
inductive ReturnType
  | primitive
  | struct (arity : ℕ)
  | callerPtr (arity : ℕ)
  deriving DecidableEq

/-- The number of fields of the result. -/
def ReturnType.numOutputs : ReturnType → ℕ
  | primitive => 1
  | struct arity => arity
  | callerPtr arity => arity

/-- The number of arguments in front of the fields of the input. -/
def ReturnType.offset : ReturnType → ℕ
  | callerPtr _ => 1
  | _ => 0

/-- A function: the convention of its LLVM type, the names of its arguments and its body. -/
structure Function (S : Type) where
  retType : ReturnType
  argNames : List String
  body : Program ℕ S

namespace Function

variable (F : Function S)

/-- The lines of the function, in the order of its text. -/
def lines : List (Line ℕ S) := F.body.flatten

/-! ### Calls -/

variable (base : ℕ)

variable (t : List (Val S))

/-- The arguments of a call with the fields `t` of an input tuple; `base` is where the caller wants the
    result. -/
def callArgs : ℕ → Option (Val S) :=
  match F.retType with
  | .callerPtr _ => fun
    | 0 => some (.ptr base)
    | i + 1 => t[i]?
  | _ => fun i => t[i]?

theorem callArgs_offset (i : ℕ) :
    F.callArgs base t (i + F.retType.offset) = t[i]? := by
  unfold callArgs
  cases F.retType <;> rfl

/-- A call of the function. -/
def call (mem : ℕ → Val S) : Fuel.Comp (Result S) :=
  run (F.callArgs base t) F.body mem

/-- Field `p` of the result, where the convention puts it. -/
def output (r : Result S) (p : ℕ) : Option (Val S) :=
  match F.retType, r.value with
  | .primitive, v => if p = 0 then v else none
  | .struct _, some (.struct fields) => fields[p]?
  | .struct _, _ => none
  | .callerPtr _, _ => some (r.mem (base + p))

/-- The call returns, and field `p` of its result is `v`. -/
def Outputs (mem : ℕ → Val S) (p : ℕ) (v : Val S) : Prop :=
  ∃ r, Fuel.Returns (F.call base t mem) r ∧ F.output base r p = some v

/-! ### Uses of arguments -/

/-- The operand is argument `a`. -/
def isArg (a : ℕ) : Operand ℕ S → Bool
  | .arg b => b == a
  | _ => false

theorem isArg_iff {a : ℕ} {o : Operand ℕ S} : isArg a o = true ↔ o = .arg a := by
  cases o <;> simp [isArg]

/-- The users of argument `a`, once for each use.  The parser puts each new use at the head of the use list,
    so the list has the last use in the text first. -/
def uses (a : ℕ) : List (Line ℕ S) :=
  (F.lines.flatMap fun l => (l.inst.operands.filter (isArg a)).map fun _ => l).reverse

theorem mem_uses {a : ℕ} {l : Line ℕ S} : l ∈ F.uses a ↔ l ∈ F.lines ∧ .arg a ∈ l.inst.operands := by
  simp only [uses, List.mem_reverse, List.mem_flatMap, List.mem_map, List.mem_filter, isArg_iff]
  constructor
  · rintro ⟨l', hl', o, ⟨ho, rfl⟩, rfl⟩
    exact ⟨hl', ho⟩
  · rintro ⟨hl, hmem⟩
    exact ⟨l, hl, .arg a, ⟨hmem, rfl⟩, rfl⟩

theorem uses_iff {a : ℕ} : F.body.Uses a ↔ ∃ l, l ∈ F.uses a :=
  ⟨fun ⟨l, hl, ha⟩ => ⟨l, F.mem_uses.mpr ⟨hl, ha⟩⟩, fun ⟨l, hl⟩ => ⟨l, F.mem_uses.mp hl⟩⟩

/-- The instruction counts as one that reads its operands. -/
def isRead : Inst ℕ S → Bool
  | .store _ _ | .insertValue _ _ _ | .ret _ => false
  | _ => true

/-- `Function::ComputeIsArgumentRead`. -/
def computeIsArgumentRead (i : ℕ) : Bool := (F.uses (i + F.retType.offset)).any fun l => isRead l.inst

/-! ### Noninterference -/

/-- The result does not depend on argument `i`: calls whose arguments differ at most there return the same. -/
def Noninterfering (i : ℕ) : Prop :=
  ∀ base t t' mem, (∀ j, j ≠ i → t[j]? = t'[j]?) →
    ∀ p v, F.Outputs base t mem p v ↔ F.Outputs base t' mem p v

/-- Argument `i` is an operand of no `store`, no `insertvalue` and no `ret`. -/
def OnlyRead (i : ℕ) : Prop := ∀ l ∈ F.uses (i + F.retType.offset),
  (∀ v o, l.inst ≠ .store v o) ∧ (∀ o v index, l.inst ≠ .insertValue o v index) ∧ ∀ o, l.inst ≠ .ret o

theorem OnlyRead.isRead {F : Function S} {i : ℕ} (h : F.OnlyRead i) {l : Line ℕ S}
    (hl : l ∈ F.uses (i + F.retType.offset)) : isRead l.inst = true := by
  obtain ⟨hstore, hinsert, hret⟩ := h l hl
  cases hinst : l.inst with
  | store v o => exact absurd hinst (hstore v o)
  | insertValue o v index => exact absurd hinst (hinsert o v index)
  | ret o => exact absurd hinst (hret o)
  | _ => rfl

theorem not_uses_of_unread {i : ℕ} (honly : F.OnlyRead i) (hread : F.computeIsArgumentRead i = false) :
    ¬ F.body.Uses (i + F.retType.offset) := by
  intro huses
  obtain ⟨l, hl⟩ := F.uses_iff.mp huses
  exact List.any_eq_false.mp hread l hl (honly.isRead hl)

/-- Calls that agree on all other arguments pass the same values for them. -/
theorem callArgs_congr {i : ℕ} {t t' : List (Val S)} (h : ∀ j, j ≠ i → t[j]? = t'[j]?) (base : ℕ)
    {a : ℕ} (ha : a ≠ i + F.retType.offset) : F.callArgs base t a = F.callArgs base t' a := by
  unfold callArgs
  cases hret : F.retType with
  | callerPtr arity =>
    rw [hret] at ha
    cases a with
    | zero => rfl
    | succ j => exact h j fun hj => ha (by rw [hj]; rfl)
  | primitive =>
    rw [hret] at ha
    exact h a ha
  | struct arity =>
    rw [hret] at ha
    exact h a ha

/-- An argument that the analysis finds unread does not influence the result, unless it is an operand of a
    `store`, an `insertvalue` or a `ret`, which are not counted as reads. -/
theorem unreadArgument_noninterfering (i : ℕ) (honly : F.OnlyRead i)
    (hread : F.computeIsArgumentRead i = false) : F.Noninterfering i := by
  intro base t t' mem hagree p v
  have hcall : F.call base t mem = F.call base t' mem := by
    apply run_congr
    intro a ha
    apply F.callArgs_congr hagree
    rintro rfl
    exact F.not_uses_of_unread honly hread ha
  rw [Outputs, Outputs, hcall]

/-- The filter that keeps the rows whose second field, a number, is at least its constant 3.  The pointer to
    the result is cast to the type of its only field. -/
def secondAtLeastThree : Function ℕ where
  retType := .callerPtr 1
  argNames := [".1", ".2", ".3"]
  body := [[⟨0, ".4", .op (fun | [.scalar n] => some (.bool (decide (3 ≤ n))) | _ => none) [.arg 2]⟩,
    ⟨1, ".5", .gep (.arg 0) 0⟩,
    ⟨2, "", .store (.reg 0) (.reg 1)⟩,
    ⟨3, "", .ret none⟩]]

theorem secondAtLeastThree_noninterfering :
    secondAtLeastThree.computeIsArgumentRead 0 = false ∧ secondAtLeastThree.Noninterfering 0 :=
  ⟨rfl, secondAtLeastThree.unreadArgument_noninterfering 0
    (fun l hl => absurd hl (by rw [show secondAtLeastThree.uses _ = [] from rfl]; exact List.not_mem_nil)) rfl⟩

/-- The filter on a Boolean field that is the field itself. -/
def passField : Function ℕ where
  retType := .callerPtr 1
  argNames := [".1", ".2"]
  body := [[⟨0, ".3", .gep (.arg 0) 0⟩, ⟨1, "", .store (.arg 1) (.reg 0)⟩, ⟨2, "", .ret none⟩]]

/-- The field decides what the filter returns, though it is not read: it is only stored. -/
theorem passField_interferes : passField.computeIsArgumentRead 0 = false ∧ ¬ passField.Noninterfering 0 := by
  refine ⟨rfl, fun h => ?_⟩
  have returns (b : Bool) : Fuel.Returns (passField.call 0 [.bool b] fun _ => .undef)
      ⟨none, Function.update (fun _ => .undef) 0 (.bool b)⟩ :=
    (Fuel.Iterates.step (Fuel.Returns.pure _)
      (.step (Fuel.Returns.pure _) (.done (Fuel.Returns.pure _)))).returns
  have hout (b : Bool) : passField.Outputs 0 [.bool b] (fun _ => .undef) 0 (.bool b) :=
    ⟨_, returns b, rfl⟩
  have hagree : ∀ j, j ≠ 0 → [Val.bool (S := ℕ) true][j]? = [Val.bool false][j]?
    | 0, hj => absurd rfl hj
    | j + 1, _ => rfl
  obtain ⟨r, hr, hfalse⟩ := (h 0 _ _ (fun _ => .undef) hagree 0 (.bool true)).mp (hout true)
  obtain rfl := hr.unique (returns false)
  cases hfalse

end Function

end Jitq.Llvm

import Jitq.CodeGen.SymbolNames

namespace Jitq.CodeGen

open List

/-!
# LLVM functors

`GenerateLlvmFunctor` emits a class that calls the LLVM function of an operator, and the declaration of this function.
The functor gets one struct for each input; the call passes the fields of all structs.

The arguments of the call are appended input by input, whereas the types of the declaration are inserted at the front,
so that the inputs are declared in the opposite order.

* `addInput` — the loop over the inputs, with its three lists;
* `typeOf_callArgs`, `callTypes_functorParts` — the types that are passed and those that are declared;
* `llvmFunctor_types_iff` — when the two are the same.
-/

/-! ### What is emitted -/

/-- `StructDef`.  The members of a struct have different names. -/
structure StructDef where
  name : String
  types : List String
  names : List String
  sameLength : types.length = names.length
  distinct : names.Nodup

/-- The type of a member. -/
def StructDef.typeOf (struct : StructDef) (field : String) : Option String := (struct.names.zip struct.types).lookup field

/-- The lists that the loop fills: the parameters of the functor, the arguments of the call, each a parameter and a field
    of it, and the types of the declaration. -/
structure FunctorParts where
  inputArgs : List (StructDef × String)
  callArgs : List (String × String)
  callTypes : List String

variable (parts : FunctorParts)

/-- One round of the loop. -/
def addInput (inputType : StructDef) : FunctorParts :=
  let inputVarName := "t" ++ toString parts.inputArgs.length
  { inputArgs := parts.inputArgs ++ [(inputType, inputVarName)]
    callArgs := parts.callArgs ++ inputType.names.map fun field => (inputVarName, field)
    -- `call_types.insert(call_types.begin(), …)`
    callTypes := inputType.types ++ parts.callTypes }

variable (inputTypes : List StructDef)

def functorParts : FunctorParts := inputTypes.foldl addInput ⟨[], [], []⟩

/-- The definition of the functor. -/
def FunctorParts.definition (className funcName returnType : String) : String :=
  "class " ++ className ++ " \x7bpublic:    auto operator()(" ++
    Text.join "," (parts.inputArgs.map fun arg => arg.1.name ++ " " ++ arg.2) ++ ") \x7b        " ++ returnType ++
    " res;        " ++ funcName ++ "(&res, " ++ Text.join "," (parts.callArgs.map fun arg => arg.1 ++ "." ++ arg.2) ++
    ");        return res;    \x7d\x7d;"

/-- The declaration of the function. -/
def FunctorParts.declaration (funcName returnType : String) : String :=
  "extern \"C\" \x7b void " ++ funcName ++ "(" ++ returnType ++ "*, " ++ Text.join "," parts.callTypes ++ "); \x7d"

variable (context : Context)

/-- `GenerateLlvmCodeFileName(prefix)`. -/
def Context.generateLlvmCodeFileName (stem : String) : String × Context :=
  let (name, context) := context.generateSymbolName stem true
  let file := context.llvmCodeDir ++ "/" ++ name ++ ".ll"
  (file, { context with llvmCodeFiles := context.llvmCodeFiles ++ [file] })

def kNotUniqueName : String := "notuniquename218303dba31a092a63fd8a50e54f2c15"

def kEntryFunctionName : String := "cfunc.notuniquename218303dba31a092a63fd8a50e54f2c15"

/-- `StoreLlvmCode`, for code that LLVM can read. -/
def storeLlvmCode (llvmIr funcName : String) : Context :=
  let patchedIr := (llvmIr.replace kEntryFunctionName funcName).replace kNotUniqueName (funcName ++ "_helper")
  let (file, context) := context.generateLlvmCodeFileName funcName
  { context with written := context.written ++ [(file, patchedIr)] }

/-- `GenerateLlvmFunctor`; returns the name of the class. -/
def generateLlvmFunctor (funcNamePrefix llvmIr : String) (inputTypes : List StructDef)
    (returnType : String) : String × Context :=
  let (funcName, context) := context.generateSymbolName (funcNamePrefix ++ "_llvm") false
  let (className, context) := context.generateSymbolName (funcNamePrefix ++ "_functor") false
  let context := storeLlvmCode context llvmIr funcName
  let parts := functorParts inputTypes
  (className,
    { context with
      definitions := context.definitions ++ parts.definition className funcName returnType
      declarations := context.declarations ++ parts.declaration funcName returnType })

/-! ### Types -/

/-- The type of an argument of the call: the type of that field of that parameter. -/
def FunctorParts.typeOf (arg : String × String) : Option String := do
  let input ← parts.inputArgs.find? fun input => input.2 = arg.1
  input.1.typeOf arg.2

/-- Each parameter of the declared function, after the pointer to the result, has the type of the argument that is passed
    for it. -/
def FunctorParts.PassesDeclaredTypes : Prop :=
  parts.callArgs.map parts.typeOf = parts.callTypes.map some

theorem StructDef.map_typeOf (struct : StructDef) : struct.names.map struct.typeOf = struct.types.map some := by
  obtain ⟨name, types, names, hlen, hdist⟩ := struct
  unfold StructDef.typeOf
  induction names generalizing types with
  | nil =>
    obtain rfl := length_eq_zero_iff.mp hlen
    rfl
  | cons field names ih =>
    cases types with
    | nil => cases hlen
    | cons type types =>
      obtain ⟨hnew, hrest⟩ := nodup_cons.mp hdist
      have htail := ih types (Nat.succ.inj hlen) hrest
      rw [zip_cons_cons, map_cons, map_cons, lookup_cons_self, ← htail]
      refine congrArg _ (map_congr_left fun other hother => ?_)
      have hne : (other == field) = false := beq_eq_false_iff_ne.mpr fun heq => hnew (heq ▸ hother)
      rw [lookup_cons, hne]

/-- The parameters are numbered. -/
theorem inputArgs_foldl :
    (inputTypes.foldl addInput parts).inputArgs = parts.inputArgs ++
      inputTypes.mapIdx fun i inputType => (inputType, "t" ++ toString (parts.inputArgs.length + i)) := by
  induction inputTypes generalizing parts with
  | nil => simp
  | cons inputType inputTypes ih =>
    rw [foldl_cons, ih, mapIdx_cons]
    simp [addInput, Nat.add_comm, Nat.add_left_comm]

theorem callArgs_foldl :
    (inputTypes.foldl addInput parts).callArgs = parts.callArgs ++ (inputTypes.mapIdx fun i inputType =>
      inputType.names.map fun field => ("t" ++ toString (parts.inputArgs.length + i), field)).flatten := by
  induction inputTypes generalizing parts with
  | nil => simp
  | cons inputType inputTypes ih =>
    rw [foldl_cons, ih, mapIdx_cons, flatten_cons]
    simp [addInput, Nat.add_comm, Nat.add_left_comm]

theorem variable_inj {i j : ℕ} (h : "t" ++ toString i = "t" ++ toString j) : i = j := by
  have hlist := congrArg String.toList h
  rw [String.toList_append, String.toList_append] at hlist
  exact toString_nat_injective (String.toList_inj.mp (append_cancel_left hlist))

section

variable (inputTypes : List StructDef)

/-- A variable is the parameter with its number. -/
theorem find_variable (k i : ℕ) : (inputTypes.mapIdx fun j inputType => (inputType, "t" ++ toString (k + j))).find?
        (fun input => input.2 = "t" ++ toString (k + i)) =
      inputTypes[i]?.map fun inputType => (inputType, "t" ++ toString (k + i)) := by
  induction inputTypes generalizing k i with
  | nil => rfl
  | cons inputType inputTypes ih =>
    rw [mapIdx_cons]
    cases i with
    | zero => simp
    | succ i =>
      have hne : ¬ "t" ++ toString (k + 0) = "t" ++ toString (k + (i + 1)) := by
        intro h
        have := variable_inj h
        omega
      rw [find?_cons, decide_eq_false hne, getElem?_cons_succ]
      have hrest := ih (k + 1) i
      simpa only [Nat.add_assoc, Nat.add_comm 1] using hrest

/-- **The types of the arguments** come in the order of the inputs. -/
theorem typeOf_callArgs : (functorParts inputTypes).callArgs.map (functorParts inputTypes).typeOf =
      (inputTypes.flatMap StructDef.types).map some := by
  have hins : (functorParts inputTypes).inputArgs =
      inputTypes.mapIdx fun i inputType => (inputType, "t" ++ toString (0 + i)) := by
    rw [functorParts, inputArgs_foldl]
    rfl
  have htype : ∀ (i : ℕ) (inputType : StructDef), inputTypes[i]? = some inputType →
      (inputType.names.map fun field => ("t" ++ toString (0 + i), field)).map (functorParts inputTypes).typeOf =
        inputType.types.map some := by
    intro i inputType hi
    rw [map_map, ← inputType.map_typeOf]
    refine map_congr_left fun field _ => ?_
    show (functorParts inputTypes).typeOf ("t" ++ toString (0 + i), field) = _
    unfold FunctorParts.typeOf
    rw [hins, find_variable inputTypes 0 i, hi]
    rfl
  have hargs : (functorParts inputTypes).callArgs = (inputTypes.mapIdx fun i inputType =>
      inputType.names.map fun field => ("t" ++ toString (0 + i), field)).flatten := by
    rw [functorParts, callArgs_foldl]
    rfl
  rw [hargs, map_flatten, flatMap_def, map_flatten]
  refine congrArg flatten (ext_getElem? fun i => ?_)
  rw [getElem?_map, getElem?_mapIdx, getElem?_map, getElem?_map]
  cases hi : inputTypes[i]? with
  | none => rfl
  | some inputType => exact congrArg some (htype i inputType hi)

theorem callTypes_foldl (parts : FunctorParts) :
    (inputTypes.foldl addInput parts).callTypes = (inputTypes.reverse.flatMap StructDef.types) ++ parts.callTypes := by
  induction inputTypes generalizing parts with
  | nil => rfl
  | cons inputType inputTypes ih =>
    rw [foldl_cons, ih, reverse_cons, flatMap_append, flatMap_singleton, append_assoc]
    rfl

/-- **The types of the declaration** come in the opposite order of the inputs. -/
theorem callTypes_functorParts :
    (functorParts inputTypes).callTypes = inputTypes.reverse.flatMap StructDef.types := by
  rw [functorParts, callTypes_foldl, append_nil]

end

/-! ### When the types agree -/

/-- How many fields the inputs behind an input have. -/
def fieldsAfter (i : ℕ) : ℕ := ((inputTypes.drop (i + 1)).flatMap StructDef.types).length

/-- The arguments that have as many arguments before them as there are fields behind an input have the types of this
    input: the inputs look the same from the front and from the back. -/
def Symmetric : Prop :=
  ∀ i inputType, inputTypes[i]? = some inputType →
    ((inputTypes.flatMap StructDef.types).drop (fieldsAfter inputTypes i)).take inputType.types.length = inputType.types

theorem fieldsAfter_add_le {inputTypes : List StructDef} {i : ℕ} {inputType : StructDef}
    (h : inputTypes[i]? = some inputType) :
    fieldsAfter inputTypes i + inputType.types.length ≤ (inputTypes.flatMap StructDef.types).length := by
  obtain ⟨hi, rfl⟩ := List.getElem?_eq_some_iff.mp h
  have hsplit : inputTypes.flatMap StructDef.types = (inputTypes.take i).flatMap StructDef.types ++
      (inputTypes[i].types ++ (inputTypes.drop (i + 1)).flatMap StructDef.types) := by
    rw [← flatMap_cons, ← flatMap_append, ← drop_eq_getElem_cons hi, take_append_drop]
  rw [hsplit, length_append, length_append, fieldsAfter]
  omega

/-- A list is the concatenation of blocks in the opposite order if each block stands at its place. -/
theorem eq_reverse_flatMap_iff (types : List String)
    (hlen : types.length = (inputTypes.flatMap StructDef.types).length) :
    types = inputTypes.reverse.flatMap StructDef.types ↔ ∀ i inputType, inputTypes[i]? = some inputType →
      (types.drop (fieldsAfter inputTypes i)).take inputType.types.length = inputType.types := by
  induction inputTypes generalizing types with
  | nil =>
    obtain rfl := length_eq_zero_iff.mp hlen
    exact iff_of_true rfl nofun
  | cons first inputTypes ih =>
    -- the first input is the last block
    obtain ⟨before, last, rfl, hbefore, hlast⟩ : ∃ before last, types = before ++ last ∧
        before.length = (inputTypes.flatMap StructDef.types).length ∧ last.length = first.types.length := by
      rw [flatMap_cons, length_append] at hlen
      refine ⟨_, _, (take_append_drop (inputTypes.flatMap StructDef.types).length types).symm, ?_, ?_⟩
      · rw [length_take]
        omega
      · rw [length_drop]
        omega
    have hreverse : before.length = (inputTypes.reverse.flatMap StructDef.types).length := by
      rw [hbefore, length_flatMap, length_flatMap, map_reverse, sum_reverse]
    have hfirst : ((before ++ last).drop (fieldsAfter (first :: inputTypes) 0)).take first.types.length = last := by
      rw [show fieldsAfter (first :: inputTypes) 0 = before.length from hbefore.symm, drop_left, ← hlast, take_length]
    -- a block of the others stands in the first part
    have hblock : ∀ i inputType, inputTypes[i]? = some inputType →
        ((before ++ last).drop (fieldsAfter inputTypes i)).take inputType.types.length =
          (before.drop (fieldsAfter inputTypes i)).take inputType.types.length := by
      intro i inputType hi
      have hle := fieldsAfter_add_le hi
      rw [drop_append_of_le_length (by omega), take_append_of_le_length (by rw [length_drop]; omega)]
    have hparts : before ++ last = inputTypes.reverse.flatMap StructDef.types ++ first.types ↔
        before = inputTypes.reverse.flatMap StructDef.types ∧ last = first.types :=
      ⟨fun h => append_inj h hreverse, fun h => by rw [h.1, h.2]⟩
    rw [reverse_cons, flatMap_append, flatMap_singleton, hparts, ih before hbefore]
    constructor
    · rintro ⟨hothers, hend⟩ i inputType hi
      cases i with
      | zero =>
        cases hi
        exact hfirst.trans hend
      | succ i => exact (hblock i inputType hi).trans (hothers i inputType hi)
    · intro hall
      refine ⟨fun i inputType hi => ?_, hfirst.symm.trans (hall 0 first rfl)⟩
      exact (hblock i inputType hi).symm.trans (hall (i + 1) inputType hi)

theorem passesDeclaredTypes_iff : (functorParts inputTypes).PassesDeclaredTypes ↔
    inputTypes.flatMap StructDef.types = inputTypes.reverse.flatMap StructDef.types := by
  unfold FunctorParts.PassesDeclaredTypes
  rw [typeOf_callArgs, callTypes_functorParts, List.map_inj_right fun _ _ h => Option.some.inj h]

/-- The call and the declaration that are emitted. -/
def EmitsParts (context context' : Context) (parts : FunctorParts) (returnType : String) : Prop :=
  ∃ className funcName, context'.definitions = context.definitions ++ parts.definition className funcName returnType ∧
    context'.declarations = context.declarations ++ parts.declaration funcName returnType

theorem generateLlvmFunctor_emits (funcNamePrefix llvmIr : String) (inputTypes : List StructDef)
    (returnType : String) : EmitsParts context (generateLlvmFunctor context funcNamePrefix llvmIr inputTypes returnType).2
      (functorParts inputTypes) returnType :=
  ⟨_, _, rfl, rfl⟩

/-- A predicate over a `long` on the left and a `double` on the right. -/
def predicateInputs : List StructDef :=
  [⟨"tuple_0", ["long"], ["v0"], rfl, by decide⟩, ⟨"tuple_1", ["double"], ["v0"], rfl, by decide⟩]

end Jitq.CodeGen

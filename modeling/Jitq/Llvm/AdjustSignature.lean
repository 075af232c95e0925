import Jitq.Data.Atomic
import Jitq.Llvm.OutputPositions

namespace Jitq.Llvm

open Ssa List Option

/-! # Moving a filter function to another input

When a filter moves to another place in the plan, `AdjustFilterSignature` gives its function the parameters of the new
input and redirects the uses of the old parameters by attribute id.  The body then belongs to the new function; an old
parameter that is still used afterwards has no value.

* `adjustFilterSignature` — the rewriting, parameter by parameter;
* `adjustFilterSignature_eq` — all replacements together are one renaming of the arguments, `newArg`;
* `Preserves` — what the new function has to be;
* `adjustFilterSignature_preserves_iff` — it is, if and only if the function returns through a pointer, each parameter
  that it uses is in the read set of the filter, and no field of the new input is a string. -/

variable {S : Type}

/-! ### Types -/

/-- The LLVM types of parameters. -/
inductive LlvmType
  | i1
  | i32
  | i64
  | float
  | double
  | i8Ptr
  deriving DecidableEq

/-- `c_type_to_llvm`. -/
def cTypeToLlvm (type : String) : LlvmType :=
  if type = "long" then .i64
  else if type = "int" then .i32
  else if type = "bool" then .i1
  else if type = "float" then .float
  else if type = "double" then .double
  else .double

/-- The type that a field has as a parameter; a string is an object and is passed by its address. -/
def parameterType : AtomicType → LlvmType
  | .bool => .i1
  | .int => .i32
  | .long => .i64
  | .float => .float
  | .double => .double
  | .string => .i8Ptr

theorem cTypeToLlvm_eq_iff (type : AtomicType) : cTypeToLlvm type.name = parameterType type ↔ type ≠ .string := by
  cases type <;> decide

/-! ### The rewriting -/

/-- A field of the new predecessor: its attribute id and its type. -/
structure InputField where
  attributeId : ℕ
  type : AtomicType

/-- The new function, whose type is `void`.  In its body, `inl` is a parameter of the old function and `inr` one of
    the new function. -/
structure AdjustedFunction (S : Type) where
  params : List LlvmType
  body : Program (ℕ ⊕ ℕ) S

/-- What becomes of an argument when the uses of one old argument are replaced. -/
def replaceArg (old new : ℕ) (a : ℕ ⊕ ℕ) : ℕ ⊕ ℕ := if a = .inl old then .inr new else a

/-- `replaceAllUsesWith`, of an old argument with a new one. -/
def replaceAllUsesWith (old new : ℕ) (body : Program (ℕ ⊕ ℕ) S) : Program (ℕ ⊕ ℕ) S :=
  body.mapArgs (replaceArg old new)

/-- The attribute ids that a filter with input fields `ids` reads, as `DetermineReadSetVisitor` collects them. -/
def readSet (F : Function S) (ids : List ℕ) : List ℕ :=
  (ids.zipIdx.filter fun x => F.computeIsArgumentRead x.2).map Prod.fst

/-- The position of the first field of the predecessor with an attribute id. -/
def newPosition (pred : List InputField) (attr : ℕ) : Option ℕ := pred.findIdx? (·.attributeId == attr)

/-- The loop over the fields of the filter from position `oldPos` on.  It fails where a field that is read is missing
    in the predecessor. -/
def replaceFields (reads : List ℕ) (pred : List InputField) :
    ℕ → List ℕ → Program (ℕ ⊕ ℕ) S → Option (Program (ℕ ⊕ ℕ) S)
  | _, [], body => some body
  | oldPos, attr :: ids, body =>
    if attr ∈ reads then
      -- `+ 1` accounts for the pointer to the result
      (newPosition pred attr).bind fun newPos =>
        replaceFields reads pred (oldPos + 1) ids (replaceAllUsesWith (oldPos + 1) (newPos + 1) body)
    else replaceFields reads pred (oldPos + 1) ids body

/-- `Function::AdjustFilterSignature`, for a filter whose fields have the attribute ids `ids`. -/
def adjustFilterSignature (F : Function S) (ids : List ℕ) (pred : List InputField) : Option (AdjustedFunction S) :=
  (replaceFields (readSet F ids) pred 0 ids (F.body.mapArgs .inl)).map fun body =>
    { params := .i8Ptr :: pred.map fun f => cTypeToLlvm f.type.name
      body := replaceAllUsesWith 0 0 body }

variable {F : Function S} {ids : List ℕ} {attr : ℕ} {pred : List InputField}

theorem mem_readSet : attr ∈ readSet F ids ↔ ∃ i, ids[i]? = some attr ∧ F.computeIsArgumentRead i = true := by
  simp only [readSet, List.mem_map, mem_filter, Prod.exists, exists_and_right, exists_eq_right,
    mem_zipIdx_iff_getElem?]

theorem newPosition_eq_some {k : ℕ} (h : newPosition pred attr = some k) :
    ∃ f, pred[k]? = some f ∧ f.attributeId = attr := by
  obtain ⟨hlt, hid, -⟩ := findIdx?_eq_some_iff_getElem.mp h
  exact ⟨pred[k], getElem?_eq_getElem hlt, by simpa using hid⟩

/-! ### The rewriting as one renaming -/

/-- What becomes of argument `a` of the old function, which is field `attr` of the filter. -/
def newArg (reads : List ℕ) (pred : List InputField) (a attr : ℕ) : ℕ ⊕ ℕ :=
  if attr ∈ reads then ((newPosition pred attr).map fun k => .inr (k + 1)).getD (.inl a) else .inl a

/-- What becomes of an argument in the loop over the fields `ids` from position `oldPos` on. -/
def renameField (reads : List ℕ) (pred : List InputField) (oldPos : ℕ) (ids : List ℕ) : ℕ ⊕ ℕ → ℕ ⊕ ℕ
  | .inl (a + 1) =>
    if oldPos ≤ a then (ids[a - oldPos]?.map (newArg reads pred (a + 1))).getD (.inl (a + 1)) else .inl (a + 1)
  | a => a

section

variable {reads : List ℕ} {pred : List InputField}

theorem renameField_nil (oldPos : ℕ) : renameField reads pred oldPos [] = id := by
  funext a
  cases a with
  | inl a => cases a <;> simp [renameField]
  | inr a => rfl

/-- The first field first, then the others. -/
theorem renameField_cons (oldPos attr : ℕ) (ids : List ℕ) :
    renameField reads pred oldPos (attr :: ids) = renameField reads pred (oldPos + 1) ids ∘
      fun a => if a = .inl (oldPos + 1) then newArg reads pred (oldPos + 1) attr else a := by
  -- a field that is replaced is not touched again, nor is one that the loop has passed
  have done (k : ℕ) : renameField reads pred (oldPos + 1) ids (.inr k) = .inr k := rfl
  have passed : renameField reads pred (oldPos + 1) ids (.inl (oldPos + 1)) = .inl (oldPos + 1) := by
    simp [renameField]
  funext a
  cases a with
  | inr k => rfl
  | inl a =>
    cases a with
    | zero => simp [renameField]
    | succ a =>
      rcases Nat.lt_trichotomy a oldPos with hlt | rfl | hgt
      · simp [renameField, show ¬ oldPos ≤ a by omega, show ¬ oldPos + 1 ≤ a by omega, show a ≠ oldPos by omega]
      · simp only [renameField, le_refl, if_true, Nat.sub_self, getElem?_cons_zero, map_some,
          getD_some, Function.comp_apply]
        unfold newArg
        split
        · cases newPosition pred attr with
          | none => exact passed.symm
          | some k => exact (done (k + 1)).symm
        · exact passed.symm
      · obtain ⟨d, rfl⟩ := Nat.exists_eq_add_of_lt hgt
        have hne : (.inl (oldPos + d + 1 + 1) : ℕ ⊕ ℕ) ≠ .inl (oldPos + 1) := by
          intro heq
          have := Sum.inl.inj heq
          omega
        simp only [Function.comp_apply, if_neg hne, renameField, show oldPos + d + 1 - oldPos = d + 1 by omega,
          show oldPos ≤ oldPos + d + 1 by omega, show oldPos + 1 ≤ oldPos + d + 1 by omega, if_true,
          show oldPos + d + 1 - (oldPos + 1) = d by omega, getElem?_cons_succ]

/-- The loop renames the arguments, provided that all fields that are read are in the predecessor. -/
theorem replaceFields_eq (p : Program ℕ S) (τ : ℕ → ℕ ⊕ ℕ) (oldPos : ℕ) (ids : List ℕ) :
    replaceFields reads pred oldPos ids (p.mapArgs τ) =
      if ∀ attr ∈ ids, attr ∈ reads → (newPosition pred attr).isSome then
        some (p.mapArgs (renameField reads pred oldPos ids ∘ τ)) else none := by
  induction ids generalizing oldPos τ with
  | nil => simp [replaceFields, renameField_nil]
  | cons attr ids ih =>
    rw [replaceFields, renameField_cons]
    by_cases hread : attr ∈ reads
    · rw [if_pos hread]
      cases hpos : newPosition pred attr with
      | none => simp [hread, hpos]
      | some k =>
        rw [bind_some, replaceAllUsesWith, Program.mapArgs_mapArgs, ih]
        have hstep : replaceArg (oldPos + 1) (k + 1) =
            fun a => if a = .inl (oldPos + 1) then newArg reads pred (oldPos + 1) attr else a := by
          funext a
          simp [replaceArg, newArg, hread, hpos]
        simp only [forall_mem_cons, hread, hpos, isSome_some, forall_const, true_and, hstep, Function.comp_assoc]
    · rw [if_neg hread, ih]
      have hstep : (fun a => if a = .inl (oldPos + 1) then newArg reads pred (oldPos + 1) attr else a) =
          id := by
        funext a
        by_cases ha : a = .inl (oldPos + 1) <;> simp [ha, newArg, hread]
      simp only [forall_mem_cons, hread, false_imp_iff, true_and, hstep, Function.comp_id]

end

/-- What becomes of an argument of the old function. -/
def newParam (reads : List ℕ) (pred : List InputField) (ids : List ℕ) : ℕ → ℕ ⊕ ℕ :=
  replaceArg 0 0 ∘ renameField reads pred 0 ids ∘ .inl

theorem adjustFilterSignature_eq (F : Function S) (ids : List ℕ) (pred : List InputField) :
    adjustFilterSignature F ids pred = if ∀ attr ∈ ids, attr ∈ readSet F ids → (newPosition pred attr).isSome then
        some { params := .i8Ptr :: pred.map fun f => cTypeToLlvm f.type.name
               body := F.body.mapArgs (newParam (readSet F ids) pred ids) }
      else none := by
  rw [adjustFilterSignature, replaceFields_eq]
  split
  · rw [map_some, replaceAllUsesWith, Program.mapArgs_mapArgs, newParam]
  · rfl

theorem newParam_succ (reads : List ℕ) (pred : List InputField) (ids : List ℕ) (i : ℕ) :
    newParam reads pred ids (i + 1) = (ids[i]?.map (newArg reads pred (i + 1))).getD (.inl (i + 1)) := by
  have keep : ∀ a : ℕ ⊕ ℕ, a ≠ .inl 0 → replaceArg 0 0 a = a := fun a ha => if_neg ha
  simp only [newParam, Function.comp_apply, renameField, Nat.zero_le, if_true, Nat.sub_zero]
  apply keep
  cases ids[i]? with
  | none => simp
  | some attr =>
    simp only [map_some, getD_some, newArg]
    split
    · cases newPosition pred attr <;> simp
    · simp

/-- An old parameter that is used is replaced if and only if its field is read and found. -/
theorem newParam_eq_inr {reads : List ℕ} {i k : ℕ} : newParam reads pred ids (i + 1) = .inr k ↔
      ∃ attr ∈ reads, ids[i]? = some attr ∧ ∃ j, newPosition pred attr = some j ∧ k = j + 1 := by
  rw [newParam_succ]
  cases ids[i]? with
  | none => simp
  | some attr =>
    simp only [map_some, getD_some, newArg]
    split
    · next hread =>
      cases hpos : newPosition pred attr with
      | none => simp [hpos]
      | some j => simpa [hpos, hread] using eq_comm
    · next hread => simp [hread]

/-! ### What is to be preserved -/

namespace AdjustedFunction

/-- The arguments of a call with the fields of a tuple of the predecessor; old parameters have no value. -/
def callArgs (base : ℕ) (t : List (Val S)) : ℕ ⊕ ℕ → Option (Val S)
  | .inr 0 => some (.ptr base)
  | .inr (k + 1) => t[k]?
  | .inl _ => none

/-- The call returns, and has stored the result `v` of the predicate. -/
def Outputs (G : AdjustedFunction S) (base : ℕ) (t : List (Val S)) (mem : ℕ → Val S) (v : Val S) : Prop :=
  ∃ r, Fuel.Returns (run (callArgs base t) G.body mem) r ∧ r.mem base = v

end AdjustedFunction

/-- The tuples have the same values in the fields that the function uses, wherever the attribute ids are the same. -/
def Agree (F : Function S) (ids : List ℕ) (pred : List InputField) (t t' : List (Val S)) : Prop :=
  ∀ (i k : ℕ) (f : InputField), F.body.Uses (i + F.retType.offset) → pred[k]? = some f →
    ids[i]? = some f.attributeId → t'[i]? = t[k]?

/-- The new function is a valid procedure with one parameter for each field of the predecessor, uses no old parameter,
    and has the result of the old one on tuples with the same values. -/
structure Preserves (F : Function S) (ids : List ℕ) (pred : List InputField) (G : AdjustedFunction S) : Prop where
  params : G.params = .i8Ptr :: pred.map fun f => parameterType f.type
  noOldUse : ∀ a, ¬ G.body.Uses (.inl a)
  returnsVoid : ∀ l ∈ G.body.flatten, ∀ o, l.inst = .ret o → o = none
  predicate : ∀ base t t' mem, Agree F ids pred t t' → ∀ v, G.Outputs base t mem v ↔ F.Outputs base t' mem 0 v

/-- The function returns, and what its `ret`s return has the type of the function. -/
def Function.ValidReturns (F : Function S) : Prop :=
  F.rets ≠ [] ∧ ∀ o ∈ F.rets, o = none ↔ ∃ arity, F.retType = .callerPtr arity

/-- The filters that can be moved: the function returns through a pointer, each parameter it uses is read, the fields
    that are read are in the predecessor, and the predecessor has no strings. -/
structure Adjustable (F : Function S) (ids : List ℕ) (pred : List InputField) : Prop where
  callerPtr : ∃ arity, F.retType = .callerPtr arity
  used : ∀ i, F.body.Uses (i + 1) → ∃ attr ∈ readSet F ids, ids[i]? = some attr
  found : ∀ attr ∈ readSet F ids, ∃ f ∈ pred, f.attributeId = attr
  types : ∀ f ∈ pred, f.type ≠ .string

theorem newPosition_isSome : (newPosition pred attr).isSome ↔ ∃ f ∈ pred, f.attributeId = attr := by
  simp [newPosition]

theorem params_eq_iff (pred : List InputField) :
    ((.i8Ptr :: pred.map fun f => cTypeToLlvm f.type.name) = .i8Ptr :: pred.map fun f => parameterType f.type) ↔
      ∀ f ∈ pred, f.type ≠ .string := by
  simp only [List.cons.injEq, true_and, map_inj_left, cTypeToLlvm_eq_iff]

theorem mem_of_mem_readSet (h : attr ∈ readSet F ids) : attr ∈ ids := by
  obtain ⟨i, hi, -⟩ := mem_readSet.mp h
  exact mem_of_getElem? hi

/-- The renamed function runs on the tuple of the predecessor as the old one does on the old tuple. -/
theorem run_renamed (h : Adjustable F ids pred) {t t' : List (Val S)} (hagree : Agree F ids pred t t') (base : ℕ)
    (mem : ℕ → Val S) :
    run (AdjustedFunction.callArgs base t) (F.body.mapArgs (newParam (readSet F ids) pred ids)) mem =
      F.call base t' mem := by
  obtain ⟨arity, hret⟩ := h.callerPtr
  rw [run_mapArgs, Function.call]
  apply run_congr
  intro a huses
  unfold Function.callArgs
  rw [hret]
  cases a with
  | zero => rfl
  | succ i =>
    obtain ⟨attr, hread, hattr⟩ := h.used i huses
    obtain ⟨j, hj⟩ := isSome_iff_exists.mp (newPosition_isSome.mpr (h.found attr hread))
    obtain ⟨f, hf, rfl⟩ := newPosition_eq_some hj
    have hnew := (newParam_eq_inr (k := j + 1)).mpr ⟨f.attributeId, hread, hattr, j, hj, rfl⟩
    rw [Function.comp_apply, hnew]
    show t[j]? = t'[i]?
    exact (hagree i j f (by rw [hret]; exact huses) hf hattr).symm

/-- `AdjustFilterSignature` preserves the predicate of the adjustable filters, and of no others. -/
theorem adjustFilterSignature_preserves_iff (F : Function S) (hvalid : F.ValidReturns) (ids : List ℕ)
    (pred : List InputField) :
    (∃ G, adjustFilterSignature F ids pred = some G ∧ Preserves F ids pred G) ↔ Adjustable F ids pred := by
  rw [adjustFilterSignature_eq]
  constructor
  · rintro ⟨G, hG, hpres⟩
    split at hG
    · next hfound =>
      cases hG
      refine ⟨?_, fun i huses => ?_, fun attr hread => ?_, (params_eq_iff pred).mp hpres.params⟩
      · -- a `ret` of the old function is one of the new procedure, so it returns no value
        obtain ⟨o, ho⟩ := List.exists_mem_of_ne_nil _ hvalid.1
        apply (hvalid.2 o ho).mp
        obtain ⟨l, hl, hinst⟩ := Function.mem_rets.mp ho
        have hvoid := hpres.returnsVoid _ (Program.mem_flatten_mapArgs.mpr ⟨l, hl, rfl⟩) _
          (congrArg (Inst.mapArgs _) hinst)
        exact Option.map_eq_none_iff.mp hvoid
      · -- the use is one of a new parameter
        cases hrename : newParam (readSet F ids) pred ids (i + 1) with
        | inl a => exact absurd (uses_mapArgs.mpr ⟨i + 1, huses, hrename⟩) (hpres.noOldUse a)
        | inr k =>
          obtain ⟨attr, hread, hattr, -⟩ := newParam_eq_inr.mp hrename
          exact ⟨attr, hread, hattr⟩
      · exact newPosition_isSome.mp (hfound attr (mem_of_mem_readSet hread) hread)
    · cases hG
  · intro h
    have hfound : ∀ attr ∈ ids, attr ∈ readSet F ids → (newPosition pred attr).isSome :=
      fun attr _ hread => newPosition_isSome.mpr (h.found attr hread)
    rw [if_pos hfound]
    refine ⟨_, rfl, (params_eq_iff pred).mpr h.types, ?_, ?_, ?_⟩
    · intro a huses
      obtain ⟨b, hb, hrename⟩ := uses_mapArgs.mp huses
      cases b with
      | zero => cases hrename
      | succ i =>
        obtain ⟨attr, hread, hattr⟩ := h.used i hb
        obtain ⟨j, hj⟩ := Option.isSome_iff_exists.mp (newPosition_isSome.mpr (h.found attr hread))
        exact nomatch hrename.symm.trans (newParam_eq_inr.mpr ⟨attr, hread, hattr, j, hj, rfl⟩)
    · intro l hl o hinst
      obtain ⟨l, hl', rfl⟩ := Program.mem_flatten_mapArgs.mp hl
      obtain ⟨o', ho', rfl⟩ := Inst.mapArgs_eq_ret hinst
      rw [(hvalid.2 o' (Function.mem_rets.mpr ⟨l, hl', ho'⟩)).mpr h.callerPtr]
      rfl
    · intro base t t' mem hagree v
      obtain ⟨arity, hret⟩ := h.callerPtr
      simp only [AdjustedFunction.Outputs, Function.Outputs, run_renamed h hagree, Function.output, hret,
        Nat.add_zero, Option.some.injEq]

/-- A filter on the second of two fields moves to an input with three fields, two of which have its attribute id. -/
theorem adjustFilterSignature_preserves_secondAtLeastThree :
    ∃ G, adjustFilterSignature Function.secondAtLeastThree [5, 6] [⟨6, .long⟩, ⟨5, .int⟩, ⟨6, .long⟩] = some G ∧
      Preserves Function.secondAtLeastThree [5, 6] [⟨6, .long⟩, ⟨5, .int⟩, ⟨6, .long⟩] G := by
  have hrets : Function.secondAtLeastThree.rets = [none] := rfl
  have hvalid : Function.secondAtLeastThree.ValidReturns :=
    ⟨by simp [hrets], fun o ho => iff_of_true (List.mem_singleton.mp (hrets ▸ ho)) ⟨1, rfl⟩⟩
  apply (adjustFilterSignature_preserves_iff _ hvalid _ _).mpr
  refine ⟨⟨1, rfl⟩, fun i huses => ?_, by decide, by decide⟩
  obtain ⟨l, hl, harg⟩ := huses
  -- the only use of a parameter other than the pointer is that of the second field
  obtain rfl : i = 1 := by
    simp only [Function.secondAtLeastThree, List.flatten_cons, List.flatten_nil, List.append_nil, List.mem_cons,
      List.not_mem_nil, or_false] at hl
    rcases hl with rfl | rfl | rfl | rfl
    · simpa [Inst.operands] using harg
    · simp [Inst.operands] at harg
    · simp [Inst.operands] at harg
    · simp [Inst.operands] at harg
  exact ⟨6, by decide, rfl⟩

/-- A field that is only stored is not in the read set, and the store keeps using the old parameter. -/
theorem passField_keeps_old_parameter :
    ∃ G, adjustFilterSignature Function.passField [5] [⟨5, .bool⟩] = some G ∧ G.body.Uses (.inl 1) :=
  ⟨_, rfl, _, List.mem_cons_of_mem _ List.mem_cons_self, List.mem_cons_self⟩

end Jitq.Llvm

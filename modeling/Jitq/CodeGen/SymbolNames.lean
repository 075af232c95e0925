import Jitq.Dag.DagOperator
import Jitq.Lib.Text

namespace Jitq.CodeGen

open Function

/-!
# Symbol names of the generated code

`Context::GenerateSymbolName` makes a name from a prefix (here a *stem*) and a counter that it keeps for each stem;
the first name may be the stem alone.  As names that were returned serve as stems again, a stem may look like another
one with a number behind it.

* `Context.generateSymbolName`, `generateSymbolNames` — one call, and a sequence of calls on the same counters;
* `SymbolFamily` — the stems that the generator uses;
* `SymbolFamily.name_inj` — a name of these families tells its stem and its number;
* `generateSymbolNames_distinct` — so no two calls return the same name.
-/

/-! ### The context -/

/-- `code_gen::cpp::Context`: the text that was emitted, the files with LLVM code, and the counters.  `written` is what
    was written to files. -/
structure Context where
  declarations : String
  definitions : String
  llvmCodeDir : String
  llvmCodeFiles : List String
  uniqueCounters : String → ℕ
  written : List (String × String)

/-- The name with this number. -/
def symbolName (stem : String) (tryEmptySuffix : Bool) (counter : ℕ) : String :=
  if counter = 0 ∧ tryEmptySuffix = true then stem else stem ++ "_" ++ toString counter

/-- `GenerateSymbolName(prefix, try_empty_suffix)`. -/
def Context.generateSymbolName (context : Context) (stem : String) (tryEmptySuffix : Bool) : String × Context :=
  (symbolName stem tryEmptySuffix (context.uniqueCounters stem),
    { context with
      uniqueCounters := update context.uniqueCounters stem (context.uniqueCounters stem + 1) })

/-- The arguments of a call. -/
structure SymbolCall where
  stem : String
  tryEmptySuffix : Bool

/-- A sequence of calls, each with the name that it returns. -/
def generateSymbolNames (context : Context) : List SymbolCall → List (SymbolCall × String)
  | [] => []
  | call :: calls =>
    let (name, context') := context.generateSymbolName call.stem call.tryEmptySuffix
    (call, name) :: generateSymbolNames context' calls

/-! ### The stems of the generator -/

/-- The functions of a plan. -/
inductive ExecuteFunction
  | tuples
  | values
  | pipelines

/-- What the generator asks names for: the variable and the result of an operator, a function of a plan, the functor of
    a projection, which is named after the variable of the operator, the LLVM function and the functor of an operator,
    a temporary value and a struct. -/
inductive SymbolFamily
  | op (id : ℕ)
  | result (id : ℕ)
  | execute (function : ExecuteFunction)
  | func (id counter : ℕ)
  | llvm (cls : OperatorClass)
  | functor (cls : OperatorClass)
  | val
  | tuple

namespace SymbolFamily

def stem : SymbolFamily → String
  | op id => "op_" ++ toString id
  | result id => "op_" ++ toString id ++ "_result"
  | execute .tuples => "execute_tuples"
  | execute .values => "execute_values"
  | execute .pipelines => "execute_pipelines"
  | func id counter => symbolName ("op_" ++ toString id) true counter ++ "_func"
  | llvm cls => cls.name ++ "_llvm"
  | functor cls => cls.name ++ "_functor"
  | val => "val"
  | tuple => "tuple"

def tryEmptySuffix : SymbolFamily → Bool
  | op _ | result _ | execute _ | func .. => true
  | llvm _ | functor _ | val | tuple => false

def call (family : SymbolFamily) : SymbolCall := ⟨family.stem, family.tryEmptySuffix⟩

end SymbolFamily

/-- `exchange_id` of an exchange operator, a literal of the generated code. -/
def exchangeId (hash : String → ℕ) (varName : String) : String := toString (hash varName) ++ "U"

/-! ### Reading a name -/

theorem toString_nat_injective {m n : ℕ} (h : toString m = toString n) : m = n :=
  Int.ofNat.inj (Text.toString_int_injective h)

theorem underscore_notMem_toString (n : ℕ) : '_' ∉ (toString n).toList :=
  Text.notMem_toString (by decide) (by decide) (n : ℤ)

/-- A name is cut at its last underscore. -/
theorem append_underscore_inj {a a' b b' : String} (hb : '_' ∉ b.toList) (hb' : '_' ∉ b'.toList)
    (h : a ++ "_" ++ b = a' ++ "_" ++ b') : a = a' ∧ b = b' :=
  Text.append_string_inj hb hb' h

/-- A text whose last word is no number is not another one with a number behind it. -/
theorem append_word_ne_numbered {a stem word : String} {n : ℕ} {c : Char} (hword : '_' ∉ word.toList)
    (hc : c ∈ word.toList) (hdigit : c.isDigit = false) : a ++ ("_" ++ word) ≠ stem ++ "_" ++ toString n := by
  intro h
  rw [← String.append_assoc] at h
  obtain ⟨-, rfl⟩ := append_underscore_inj hword (underscore_notMem_toString n) h
  have hno := Text.isDigit_of_mem_repr hc
  rw [hdigit] at hno
  cases hno

/-- No stem is `op`, which a number behind it would make a stem. -/
theorem SymbolFamily.stem_ne_op (family : SymbolFamily) : family.stem ≠ "op" := by
  have hunderscore : ∀ a b : String, a ++ ("_" ++ b) ≠ "op" := by
    intro a b h
    have hmem : '_' ∈ (a ++ ("_" ++ b)).toList := by simp
    rw [h] at hmem
    revert hmem
    decide
  cases family with
  | op id => exact hunderscore "op" (toString id)
  | result id => exact hunderscore ("op_" ++ toString id) "result"
  | execute function => cases function <;> decide
  | func id counter => exact hunderscore _ "func"
  | llvm cls => exact hunderscore cls.name "llvm"
  | functor cls => exact hunderscore cls.name "functor"
  | val => decide
  | tuple => decide

/-- A stem that may be a name of its own is not another stem with a number behind it. -/
theorem SymbolFamily.stem_ne_numbered {family : SymbolFamily} (hempty : family.tryEmptySuffix = true)
    (family' : SymbolFamily) (n : ℕ) : family.stem ≠ family'.stem ++ "_" ++ toString n := by
  cases family with
  | op id =>
    intro h
    -- the cut is behind `op`
    have hcut : "op" ++ "_" ++ toString id = family'.stem ++ "_" ++ toString n := h
    have hstem := (append_underscore_inj (underscore_notMem_toString id) (underscore_notMem_toString n) hcut).1
    exact family'.stem_ne_op hstem.symm
  | result id =>
    have hword : '_' ∉ "result".toList := by decide
    have hletter : 'r' ∈ "result".toList := by decide
    exact append_word_ne_numbered hword hletter (by decide)
  | execute function =>
    have hexecute : ∀ word : String, '_' ∉ word.toList → 's' ∈ word.toList →
        "execute" ++ ("_" ++ word) ≠ family'.stem ++ "_" ++ toString n :=
      fun word hword hletter => append_word_ne_numbered hword hletter (by decide)
    cases function with
    | tuples => exact hexecute "tuples" (by decide) (by decide)
    | values => exact hexecute "values" (by decide) (by decide)
    | pipelines => exact hexecute "pipelines" (by decide) (by decide)
  | func id counter =>
    have hword : '_' ∉ "func".toList := by decide
    have hletter : 'f' ∈ "func".toList := by decide
    exact append_word_ne_numbered hword hletter (by decide)
  | llvm cls | functor cls | val | tuple => cases hempty

/-- The name that a family gets with a number. -/
def SymbolFamily.name (family : SymbolFamily) (counter : ℕ) : String :=
  symbolName family.stem family.tryEmptySuffix counter

/-- **A name tells its stem and its number.** -/
theorem SymbolFamily.name_inj {family family' : SymbolFamily} {counter counter' : ℕ}
    (h : family.name counter = family'.name counter') : family.stem = family'.stem ∧ counter = counter' := by
  unfold SymbolFamily.name symbolName at h
  split at h
  · next hempty =>
    split at h
    · next hempty' => exact ⟨h, hempty.1.trans hempty'.1.symm⟩
    · exact absurd h (SymbolFamily.stem_ne_numbered hempty.2 family' counter')
  · split at h
    · next hempty' => exact absurd h.symm (SymbolFamily.stem_ne_numbered hempty'.2 family counter)
    · obtain ⟨hstem, hcounter⟩ :=
        append_underscore_inj (underscore_notMem_toString counter) (underscore_notMem_toString counter') h
      exact ⟨hstem, toString_nat_injective hcounter⟩

/-! ### Sequences of calls -/

/-- Counters only go up. -/
theorem uniqueCounters_generateSymbolName_le (context : Context) (stem : String) (tryEmptySuffix : Bool)
    (stem' : String) :
    context.uniqueCounters stem' ≤ (context.generateSymbolName stem tryEmptySuffix).2.uniqueCounters stem' := by
  show _ ≤ update context.uniqueCounters stem _ stem'
  by_cases hstem : stem' = stem
  · rw [hstem, update_self]
    exact Nat.le_succ _
  · rw [update_of_ne hstem]

/-- Each call returns the name with a number that is not below the counter of its stem. -/
theorem exists_counter_of_mem {calls : List SymbolCall} {context : Context} {call : SymbolCall} {name : String}
    (h : (call, name) ∈ generateSymbolNames context calls) :
    ∃ counter, context.uniqueCounters call.stem ≤ counter ∧ name = symbolName call.stem call.tryEmptySuffix counter := by
  induction calls generalizing context with
  | nil => cases h
  | cons first calls ih =>
    rcases List.mem_cons.mp h with heq | hrest
    · cases heq
      exact ⟨_, Nat.le_refl _, rfl⟩
    · obtain ⟨counter, hle, hname⟩ := ih hrest
      exact ⟨counter, (uniqueCounters_generateSymbolName_le context first.stem first.tryEmptySuffix call.stem).trans hle, hname⟩

/-- **No two calls of the generator return the same name**, whatever other calls are made on the same counters. -/
theorem generateSymbolNames_distinct (context : Context) (calls : List SymbolCall) :
    (generateSymbolNames context calls).Pairwise fun r r' =>
      ∀ family family' : SymbolFamily, r.1 = family.call → r'.1 = family'.call → r.2 ≠ r'.2 := by
  induction calls generalizing context with
  | nil => exact .nil
  | cons call calls ih =>
    refine List.Pairwise.cons ?_ (ih _)
    rintro ⟨call', name'⟩ hmem family family' rfl rfl heq
    obtain ⟨counter, hle, rfl⟩ := exists_counter_of_mem hmem
    have hname : family.name (context.uniqueCounters family.stem) = family'.name counter := heq
    obtain ⟨hstem, rfl⟩ := SymbolFamily.name_inj hname
    -- the first call has increased the counter of the stem
    have hcounter : context.uniqueCounters family.stem + 1 ≤ context.uniqueCounters family.stem := by
      have hupdate : (context.generateSymbolName family.stem family.tryEmptySuffix).2.uniqueCounters family'.stem =
          context.uniqueCounters family.stem + 1 := by
        show update context.uniqueCounters family.stem _ family'.stem = _
        rw [← hstem, update_self]
      rw [← hupdate]
      exact hle
    exact Nat.not_succ_le_self _ hcounter

theorem exchangeId_inj {hash : String → ℕ} {a b : String} (h : exchangeId hash a = exchangeId hash b) :
    hash a = hash b := by
  refine toString_nat_injective (String.toList_inj.mp ?_)
  have hlist := congrArg String.toList h
  rw [exchangeId, exchangeId, String.toList_append, String.toList_append] at hlist
  exact List.append_cancel_right hlist

/-- **Symbol names are unique**, and so are the ids of exchange operators if the hash tells the names of the plan
    apart. -/
theorem symbolNames_unique (context : Context) (calls : List SymbolCall) :
    ((generateSymbolNames context calls).Pairwise fun r r' =>
      ∀ family family' : SymbolFamily, r.1 = family.call → r'.1 = family'.call → r.2 ≠ r'.2) ∧
    ∀ hash : String → ℕ, Set.InjOn hash { name | ∃ r ∈ generateSymbolNames context calls, r.2 = name } →
      (generateSymbolNames context calls).Pairwise fun r r' =>
        ∀ id id', r.1 = (SymbolFamily.op id).call → r'.1 = (SymbolFamily.op id').call →
          exchangeId hash r.2 ≠ exchangeId hash r'.2 := by
  have hdist := generateSymbolNames_distinct context calls
  refine ⟨hdist, fun hash hhash => ?_⟩
  refine List.Pairwise.imp_of_mem ?_ hdist
  intro r r' hr hr' hne id id' hop hop' heq
  exact hne _ _ hop hop' (hhash ⟨r, hr, rfl⟩ ⟨r', hr', rfl⟩ (exchangeId_inj heq))

end Jitq.CodeGen

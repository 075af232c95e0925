import Jitq.Lib.Fuel
import Mathlib.Logic.Function.Basic

namespace Ssa

open List Function Option

/-! # Programs in static single assignment form

A small intermediate language with the instructions a data-flow analysis tells apart: scalar operations, address
computations, loads, stores, `insertvalue`, `phi`, branches and `ret`.  Programs are generic in the names of their
arguments `A` and in the scalars `S`:

* `run args p mem` — the run of a program from its first block; it may loop, trap or return;
* `run_mapArgs` — renaming the arguments of a program is renaming them in the call;
* `run_congr` — a run depends only on the arguments that the program uses;
* `run_invariant` — what every instruction preserves holds when the program returns. -/

variable {A B S : Type}

/-- A value at run time. -/
inductive Val (S : Type)
  | scalar (x : S)
  | bool (b : Bool)
  | ptr (address : ℕ)
  | struct (fields : List (Val S))
  | undef

/-- An operand of an instruction. -/
inductive Operand (A S : Type)
  | arg (a : A)
  | reg (r : ℕ)
  | const (v : Val S)

/-- An instruction.  A scalar operation is given by its meaning, which may trap; `gep` is the address of a field of
    a structure (a cast of a pointer is the address of its field 0). -/
inductive Inst (A S : Type)
  | op (f : List (Val S) → Option (Val S)) (operands : List (Operand A S))
  | gep (pointer : Operand A S) (index : ℕ)
  | load (pointer : Operand A S)
  | store (value pointer : Operand A S)
  | insertValue (aggregate value : Operand A S) (index : ℕ)
  | phi (incoming : List (ℕ × Operand A S))
  | br (target : ℕ)
  | condBr (condition : Operand A S) (target target' : ℕ)
  | ret (value : Option (Operand A S))

/-- The operands of an instruction, in the order of the text. -/
def Inst.operands : Inst A S → List (Operand A S)
  | op _ os => os
  | gep o _ => [o]
  | load o => [o]
  | store v o => [v, o]
  | insertValue o v _ => [o, v]
  | phi incoming => incoming.map Prod.snd
  | br _ => []
  | condBr o _ _ => [o]
  | ret o => o.toList

/-- The blocks that control may go to after an instruction. -/
def Inst.targets : Inst A S → List ℕ
  | br target => [target]
  | condBr _ target target' => [target, target']
  | _ => []

/-- A line of a program: an instruction, the register that holds its value, and the name that the text gives to the
    value, which is empty for an unnamed one. -/
structure Line (A S : Type) where
  id : ℕ
  name : String
  inst : Inst A S

/-- A program is a list of basic blocks; it starts with the first one. -/
abbrev Program (A S : Type) := List (List (Line A S))

/-! ### Runs -/

/-- The state of a run: the next instruction, the block control came from with the registers at its end, the
    registers and the memory. -/
structure State (S : Type) where
  block : ℕ
  index : ℕ
  previous : ℕ
  entry : ℕ → Option (Val S)
  regs : ℕ → Option (Val S)
  mem : ℕ → Val S

/-- What a program returns: a value, unless it is a procedure, and the memory. -/
structure Result (S : Type) where
  value : Option (Val S)
  mem : ℕ → Val S

variable {p : Program A S}

namespace State

variable (s : State S)

/-- Go on to the next instruction with a new value in a register. -/
def define (r : ℕ) (v : Val S) : State S := { s with index := s.index + 1, regs := update s.regs r (some v) }

/-- Go on to the next instruction with a new value in memory. -/
def write (address : ℕ) (v : Val S) : State S := { s with index := s.index + 1, mem := update s.mem address v }

/-- Go on to the first instruction of a block. -/
def jump (target : ℕ) : State S := { s with block := target, index := 0, previous := s.block, entry := s.regs }

/-- The state in which a call starts. -/
def start (mem : ℕ → Val S) : State S := ⟨0, 0, 0, fun _ => none, fun _ => none, mem⟩

/-- The line at which a program stands. -/
def line? (p : Program A S) : Option (Line A S) := p[s.block]?.bind (·[s.index]?)

theorem mem_flatten_of_line? {s : State S} {l : Line A S} (h : s.line? p = some l) : l ∈ p.flatten := by
  obtain ⟨block, hblock, hline⟩ := bind_eq_some_iff.mp h
  exact mem_flatten.mpr ⟨block, mem_of_getElem? hblock, mem_of_getElem? hline⟩

end State

variable (args : A → Option (Val S))

/-- The value of an operand; a register that holds no value yet has none. -/
def eval (regs : ℕ → Option (Val S)) : Operand A S → Option (Val S)
  | .arg a => args a
  | .reg r => regs r
  | .const v => some v

/-- The address of a field of the structure that a pointer points to. -/
def Val.field (index : ℕ) : Val S → Option (Val S)
  | .ptr a => some (.ptr (a + index))
  | _ => none

/-- A structure with one field replaced. -/
def Val.insert (index : ℕ) (v : Val S) : Val S → Option (Val S)
  | .struct fields => if index < fields.length then some (.struct (fields.set index v)) else none
  | _ => none

theorem Val.insert_eq_some {index : ℕ} {v a b : Val S} (h : Val.insert index v a = some b) :
    ∃ fields, a = .struct fields ∧ index < fields.length ∧ b = .struct (fields.set index v) := by
  cases a with
  | struct fields =>
    by_cases hlt : index < fields.length
    · exact ⟨fields, rfl, hlt, by simpa [Val.insert, hlt] using h.symm⟩
    · simp [Val.insert, hlt] at h
  | _ => simp [Val.insert] at h

/-- What a pointer points to. -/
def Val.deref (mem : ℕ → Val S) : Val S → Option (Val S)
  | .ptr a => some (mem a)
  | _ => none

/-- The value that an instruction computes for its register. -/
def Inst.value (s : State S) : Inst A S → Option (Val S)
  | op f os => ((os.map (eval args s.regs)).mapM id).bind f
  | gep o index => (eval args s.regs o).bind (Val.field index)
  | load o => (eval args s.regs o).bind (Val.deref s.mem)
  | insertValue o o' index => (eval args s.regs o').bind fun v => (eval args s.regs o).bind (Val.insert index v)
  -- all `phi`s of a block read the registers as they are on its entry
  | phi incoming => (incoming.find? (·.1 == s.previous)).bind fun i => eval args s.entry i.2
  | store _ _ | br _ | condBr _ _ _ | ret _ => none

/-- One instruction: the state it leads to, or what the program returns. -/
def Inst.exec (r : ℕ) (s : State S) : Inst A S → Option (State S ⊕ Result S)
  | store o o' =>
    match eval args s.regs o, eval args s.regs o' with
    | some v, some (.ptr a) => some (.inl (s.write a v))
    | _, _ => none
  | br target => some (.inl (s.jump target))
  | condBr o target target' =>
    match eval args s.regs o with
    | some (.bool b) => some (.inl (s.jump (if b then target else target')))
    | _ => none
  | ret none => some (.inr ⟨none, s.mem⟩)
  | ret (some o) => (eval args s.regs o).map fun v => .inr ⟨some v, s.mem⟩
  | inst => (inst.value args s).map fun v => .inl (s.define r v)

/-- One step of a program. -/
def step (p : Program A S) (s : State S) : Option (State S ⊕ Result S) :=
  (s.line? p).bind fun l => l.inst.exec args l.id s

/-- The run of a program on arguments and a memory. -/
def run (p : Program A S) (mem : ℕ → Val S) : Fuel.Comp (Result S) :=
  Fuel.iterate (fun s => Fuel.ofOption (step args p s)) (State.start mem)

/-! ### What one instruction can do -/

section

variable {args : A → Option (Val S)} {r : ℕ} {s s' : State S} {inst : Inst A S} {result : Result S}

/-- An instruction that does not return defines its register, writes to memory or jumps. -/
theorem Inst.exec_inl_cases (h : inst.exec args r s = some (.inl s')) :
    (∃ v, inst.value args s = some v ∧ s' = s.define r v) ∨
    (∃ o o' v a, inst = .store o o' ∧ eval args s.regs o = some v ∧ eval args s.regs o' = some (.ptr a) ∧
      s' = s.write a v) ∨
    ∃ target ∈ inst.targets, s' = s.jump target := by
  have defines {o : Option (Val S)}
      (h : (o.map fun v => (.inl (s.define r v) : State S ⊕ Result S)) = some (.inl s')) :
      ∃ v, o = some v ∧ s' = s.define r v := by
    obtain ⟨v, hv, heq⟩ := map_eq_some_iff.mp h
    exact ⟨v, hv, (Sum.inl.inj heq).symm⟩
  cases inst with
  | store o o' =>
    simp only [exec] at h
    split at h
    · next v a hv ha => exact .inr (.inl ⟨o, o', v, a, rfl, hv, ha, by simpa using h.symm⟩)
    · cases h
  | br target => exact .inr (.inr ⟨target, mem_singleton_self _, by simpa [exec] using h.symm⟩)
  | condBr o target target' =>
    simp only [exec] at h
    split at h
    · next b _ =>
      refine .inr (.inr ⟨_, ?_, (Sum.inl.inj (some.inj h)).symm⟩)
      cases b <;> simp [targets]
    · cases h
  | ret o =>
    cases o with
    | none => simp [exec] at h
    | some o => simp [exec] at h
  | op f os => exact .inl (defines h)
  | gep o index => exact .inl (defines h)
  | load o => exact .inl (defines h)
  | insertValue o o' index => exact .inl (defines h)
  | phi incoming => exact .inl (defines h)

/-- A register keeps its value, or the instruction computes it. -/
theorem Inst.regs_of_exec (h : inst.exec args r s = some (.inl s')) {q : ℕ} {v : Val S}
    (hq : s'.regs q = some v) : s.regs q = some v ∨ q = r ∧ inst.value args s = some v := by
  rcases exec_inl_cases h with ⟨w, hw, rfl⟩ | ⟨_, _, _, _, _, _, _, rfl⟩ | ⟨target, -, rfl⟩
  · by_cases hqr : q = r
    · subst hqr
      have : some w = some v := by simpa [State.define] using hq
      exact .inr ⟨rfl, this ▸ hw⟩
    · exact .inl (by simpa [State.define, update_of_ne hqr] using hq)
  · exact .inl hq
  · exact .inl hq

/-- An instruction that returns is a `ret`, and the result is the value of its operand, if it has one. -/
theorem Inst.exec_inr_cases (h : inst.exec args r s = some (.inr result)) :
    ∃ o, inst = .ret o ∧ o.map (eval args s.regs) = result.value.map some ∧ result.mem = s.mem := by
  cases inst with
  | ret o =>
    cases o with
    | none =>
      obtain rfl : ⟨none, s.mem⟩ = result := by simpa [exec] using h
      exact ⟨none, rfl, rfl, rfl⟩
    | some o =>
      obtain ⟨v, hv, heq⟩ := map_eq_some_iff.mp h
      obtain rfl : ⟨some v, s.mem⟩ = result := Sum.inr.inj heq
      exact ⟨some o, rfl, congrArg some hv, rfl⟩
  | store o o' =>
    simp only [exec] at h
    split at h <;> simp at h
  | condBr o target target' =>
    simp only [exec] at h
    split at h <;> simp at h
  | _ => simp [exec] at h

end

/-- **Invariant rule.** What holds at the start and is kept by every instruction holds when the program returns. -/
theorem run_invariant {args : A → Option (Val S)} {mem : ℕ → Val S} {result : Result S}
    {P : State S → Prop} {Q : Result S → Prop} (hstart : P (State.start mem))
    (hstep : ∀ s s' l, P s → s.line? p = some l → l.inst.exec args l.id s = some (.inl s') → P s')
    (hret : ∀ s l r, P s → s.line? p = some l → l.inst.exec args l.id s = some (.inr r) → Q r)
    (h : Fuel.Returns (run args p mem) result) : Q result := by
  obtain ⟨n, hn⟩ := h.exists
  have step_of_body {s : State S} {c} (hbody : Fuel.ofOption (step args p s) n = some c) :
      ∃ l, s.line? p = some l ∧ l.inst.exec args l.id s = some c := by
    cases hs : step args p s with
    | none => rw [hs] at hbody; cases hbody
    | some c' =>
      rw [hs] at hbody
      obtain rfl : c' = c := some.inj hbody
      exact bind_eq_some_iff.mp hs
  refine Fuel.iterate_invariant (P := P) (Q := Q) (fun s out hs hbody => ?_) hstart hn
  obtain ⟨l, hl, hexec⟩ := step_of_body hbody
  cases out with
  | inl s' => exact hstep s s' l hs hl hexec
  | inr r => exact hret s l r hs hl hexec

/-! ### Arguments -/

/-- Rename the argument that an operand may be. -/
def Operand.mapArg (σ : A → B) : Operand A S → Operand B S
  | arg a => arg (σ a)
  | reg r => reg r
  | const v => const v

/-- Rename the arguments of an instruction. -/
def Inst.mapArgs (σ : A → B) : Inst A S → Inst B S
  | op f os => op f (os.map (Operand.mapArg σ))
  | gep o index => gep (o.mapArg σ) index
  | load o => load (o.mapArg σ)
  | store v o => store (v.mapArg σ) (o.mapArg σ)
  | insertValue o v index => insertValue (o.mapArg σ) (v.mapArg σ) index
  | phi incoming => phi (incoming.map fun i => (i.1, i.2.mapArg σ))
  | br target => br target
  | condBr o target target' => condBr (o.mapArg σ) target target'
  | ret o => ret (o.map (Operand.mapArg σ))

/-- Rename the arguments in a line. -/
def Line.mapArgs (σ : A → B) (l : Line A S) : Line B S := ⟨l.id, l.name, l.inst.mapArgs σ⟩

/-- Rename the arguments of a program. -/
def Program.mapArgs (σ : A → B) (p : Program A S) : Program B S := p.map (List.map (Line.mapArgs σ))

/-- The program has `a` among its operands. -/
def Program.Uses (p : Program A S) (a : A) : Prop := ∃ l ∈ p.flatten, Operand.arg a ∈ l.inst.operands

theorem Operand.mapArg_mapArg {C : Type} (σ : A → B) (τ : B → C) (o : Operand A S) :
    (o.mapArg σ).mapArg τ = o.mapArg (τ ∘ σ) := by
  cases o <;> rfl

theorem Inst.mapArgs_mapArgs {C : Type} (σ : A → B) (τ : B → C) (inst : Inst A S) :
    (inst.mapArgs σ).mapArgs τ = inst.mapArgs (τ ∘ σ) := by
  cases inst <;> simp [mapArgs, Operand.mapArg_mapArg, comp_def]

theorem Inst.mapArgs_eq_ret {σ : A → B} {inst : Inst A S} {o : Option (Operand B S)} (h : inst.mapArgs σ = .ret o) :
    ∃ o', inst = .ret o' ∧ o'.map (Operand.mapArg σ) = o := by
  cases inst with
  | ret o' => exact ⟨o', rfl, Inst.ret.inj h⟩
  | _ => cases h

theorem Program.mapArgs_mapArgs {C : Type} (σ : A → B) (τ : B → C) (p : Program A S) :
    Program.mapArgs τ (p.mapArgs σ) = p.mapArgs (τ ∘ σ) := by
  simp [Program.mapArgs, Line.mapArgs, Inst.mapArgs_mapArgs, comp_def]

theorem Program.mem_flatten_mapArgs {σ : A → B} {l : Line B S} :
    l ∈ (p.mapArgs σ).flatten ↔ ∃ l' ∈ p.flatten, l'.mapArgs σ = l := by
  rw [Program.mapArgs, ← map_flatten, List.mem_map]

section

variable {args : A → Option (Val S)} {args' : B → Option (Val S)} (σ : A → B)

@[simp]
theorem eval_mapArg (regs : ℕ → Option (Val S)) (o : Operand A S) :
    eval args' regs (o.mapArg σ) = eval (args' ∘ σ) regs o := by
  cases o <;> rfl

@[simp]
theorem Inst.operands_mapArgs (inst : Inst A S) :
    (inst.mapArgs σ).operands = inst.operands.map (Operand.mapArg σ) := by
  cases inst with
  | ret o => cases o <;> rfl
  | phi incoming => simp [mapArgs, operands, comp_def]
  | _ => rfl

/-- A program with renamed arguments uses the new names of those it used. -/
theorem uses_mapArgs {σ : A → B} {b : B} : (p.mapArgs σ).Uses b ↔ ∃ a, p.Uses a ∧ σ a = b := by
  constructor
  · rintro ⟨l, hl, hb⟩
    obtain ⟨l, hl', rfl⟩ := Program.mem_flatten_mapArgs.mp hl
    obtain ⟨o, ho, heq⟩ := mem_map.mp (Inst.operands_mapArgs σ l.inst ▸ hb)
    cases o with
    | arg a => exact ⟨a, ⟨l, hl', ho⟩, Operand.arg.inj heq⟩
    | reg r => cases heq
    | const v => cases heq
  · rintro ⟨a, ⟨l, hl, ha⟩, rfl⟩
    refine ⟨l.mapArgs σ, Program.mem_flatten_mapArgs.mpr ⟨l, hl, rfl⟩, ?_⟩
    show _ ∈ (l.inst.mapArgs σ).operands
    rw [Inst.operands_mapArgs]
    exact mem_map_of_mem ha

theorem Inst.value_mapArgs (s : State S) (inst : Inst A S) :
    (inst.mapArgs σ).value args' s = inst.value (args' ∘ σ) s := by
  cases inst with
  | op f os => simp [mapArgs, value, comp_def]
  | phi incoming => simp [mapArgs, value, find?_map, comp_def, bind_map]
  | _ => simp [mapArgs, value]

theorem Inst.exec_mapArgs (r : ℕ) (s : State S) (inst : Inst A S) :
    (inst.mapArgs σ).exec args' r s = inst.exec (args' ∘ σ) r s := by
  cases inst with
  | store o o' => simp only [mapArgs, exec, eval_mapArg]
  | br target => rfl
  | condBr o target target' => simp only [mapArgs, exec, eval_mapArg]
  | ret o => cases o <;> simp [mapArgs, exec]
  | op f os => exact congrArg (Option.map _) (value_mapArgs σ s (.op f os))
  | gep o index => exact congrArg (Option.map _) (value_mapArgs σ s (.gep o index))
  | load o => exact congrArg (Option.map _) (value_mapArgs σ s (.load o))
  | insertValue o o' index => exact congrArg (Option.map _) (value_mapArgs σ s (.insertValue o o' index))
  | phi incoming => exact congrArg (Option.map _) (value_mapArgs σ s (.phi incoming))

theorem line?_mapArgs (s : State S) (p : Program A S) : s.line? (p.mapArgs σ) = (s.line? p).map (Line.mapArgs σ) := by
  simp only [State.line?, Program.mapArgs, getElem?_map]
  cases p[s.block]? <;> simp

/-- **Renaming.** A program with renamed arguments runs as the program does on what the new names stand for. -/
theorem run_mapArgs (p : Program A S) (mem : ℕ → Val S) : run args' (p.mapArgs σ) mem = run (args' ∘ σ) p mem := by
  have hstep : step args' (p.mapArgs σ) = step (args' ∘ σ) p := by
    funext s
    rw [step, step, line?_mapArgs, bind_map]
    congr 1
    funext l
    exact Inst.exec_mapArgs σ l.id s l.inst
  rw [run, run, hstep]

end

section

variable {args args' : A → Option (Val S)}

theorem eval_congr {regs : ℕ → Option (Val S)} {o : Operand A S} (h : ∀ a, o = .arg a → args a = args' a) :
    eval args regs o = eval args' regs o := by
  cases o with
  | arg a => exact h a rfl
  | reg r => rfl
  | const v => rfl

theorem Inst.exec_congr {inst : Inst A S} (r : ℕ) (s : State S)
    (h : ∀ a, Operand.arg a ∈ inst.operands → args a = args' a) : inst.exec args r s = inst.exec args' r s := by
  -- every operand has the same value for both calls
  have operand (regs : ℕ → Option (Val S)) (o) (ho : o ∈ inst.operands) : eval args regs o = eval args' regs o :=
    eval_congr fun a ha => h a (ha ▸ ho)
  cases inst with
  | op f os =>
    have : os.map (eval args s.regs) = os.map (eval args' s.regs) := map_congr_left (operand s.regs)
    simp only [exec, value, this]
  | phi incoming =>
    simp only [exec, value]
    cases hfind : incoming.find? (·.1 == s.previous) with
    | none => rfl
    | some i =>
      have hmem : i.2 ∈ (Inst.phi incoming).operands := mem_map_of_mem (mem_of_find?_eq_some hfind)
      simp only [bind_some, operand s.entry i.2 hmem]
  | ret o =>
    cases o with
    | none => rfl
    | some o => simp only [exec, operand s.regs o (by simp [operands])]
  | br target => rfl
  | store v o =>
    simp only [exec, operand s.regs v (by simp [operands]), operand s.regs o (by simp [operands])]
  | insertValue o v index =>
    simp only [exec, value, operand s.regs v (by simp [operands]), operand s.regs o (by simp [operands])]
  | gep o index => simp only [exec, value, operand s.regs o (by simp [operands])]
  | load o => simp only [exec, value, operand s.regs o (by simp [operands])]
  | condBr o target target' => simp only [exec, operand s.regs o (by simp [operands])]

/-- **Unused arguments.** Calls that agree on the arguments a program uses have the same run. -/
theorem run_congr (h : ∀ a, p.Uses a → args a = args' a) (mem : ℕ → Val S) : run args p mem = run args' p mem := by
  have hstep : step args p = step args' p := by
    funext s
    refine Option.bind_congr fun l hl => Inst.exec_congr l.id s fun a ha => h a ?_
    exact ⟨l, State.mem_flatten_of_line? hl, ha⟩
  rw [run, run, hstep]

end

end Ssa

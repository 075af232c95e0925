import Mathlib.Data.Nat.Init
import Mathlib.Data.List.Basic

namespace Transition

/-! # Transition systems — states, events and traces

A system takes one event at a time, in any order; an event that is not enabled gives `none`.

* `Trace S es s` — the events `es` lead from the initial state to `s`;
* `Trace.invariant` — what holds initially and is kept by every step holds in every state of a trace;
* `GuardedTrace` — a trace all of whose events meet a condition when they are taken;
* `Trace.count_le` — a measure that some events decrease bounds how often they occur, and
  `Quiescent` states, where none of these events is enabled, are then reached however the events are
  chosen. -/

variable {σ ε : Type}

structure System (σ ε : Type) where
  init : σ
  step : σ → ε → Option σ

/-- The events `es`, one after the other, lead from the initial state to a state. -/
inductive Trace (S : System σ ε) : List ε → σ → Prop
  | init : Trace S [] S.init
  | step {es : List ε} {s s' : σ} {e : ε} : Trace S es s → S.step s e = some s' → Trace S (es ++ [e]) s'

/-- Takes the events of a list in order. -/
def System.run (S : System σ ε) : σ → List ε → Option σ
  | s, [] => some s
  | s, e :: es => (S.step s e).bind fun s' => S.run s' es

variable {S : System σ ε} {es : List ε} {s : σ} {I : σ → Prop}

theorem Trace.append_run {es' : List ε} {s' : σ} (h : Trace S es s) (hrun : S.run s es' = some s') :
    Trace S (es ++ es') s' := by
  induction es' generalizing es s with
  | nil =>
    cases hrun
    rwa [List.append_nil]
  | cons e es' ih =>
    obtain ⟨s1, hs1, hrest⟩ := Option.bind_eq_some_iff.mp hrun
    have htrace := ih (h.step hs1) hrest
    rwa [List.append_assoc, List.singleton_append] at htrace

theorem Trace.of_run (hrun : S.run S.init es = some s) : Trace S es s := Trace.init.append_run hrun

/-- An invariant holds along every trace. -/
theorem Trace.invariant (hinit : I S.init) (hstep : ∀ {s e s'}, I s → S.step s e = some s' → I s') (h : Trace S es s) :
    I s := by
  induction h with
  | init => exact hinit
  | step _ hs ih => exact hstep ih hs

/-- A trace all of whose events meet a condition when they are taken. -/
inductive GuardedTrace (S : System σ ε) (C : σ → ε → Prop) : List ε → σ → Prop
  | init : GuardedTrace S C [] S.init
  | step {es : List ε} {s s' : σ} {e : ε} : GuardedTrace S C es s → C s e → S.step s e = some s' →
      GuardedTrace S C (es ++ [e]) s'

theorem GuardedTrace.trace {C : σ → ε → Prop} (h : GuardedTrace S C es s) : Trace S es s := by
  induction h with
  | init => exact .init
  | step _ _ hs ih => exact ih.step hs

theorem GuardedTrace.invariant {C : σ → ε → Prop} (hinit : I S.init)
    (hstep : ∀ {s e s'}, I s → C s e → S.step s e = some s' → I s') (h : GuardedTrace S C es s) : I s := by
  induction h with
  | init => exact hinit
  | step _ hc hs ih => exact hstep ih hc hs

/-- The system whose events are only enabled under a condition. -/
def System.guarded (S : System σ ε) (C : σ → ε → Prop) [∀ s e, Decidable (C s e)] : System σ ε :=
  ⟨S.init, fun s e => if C s e then S.step s e else none⟩

theorem GuardedTrace.of_trace {C : σ → ε → Prop} [∀ s e, Decidable (C s e)]
    (h : Trace (S.guarded C) es s) : GuardedTrace S C es s := by
  induction h with
  | init => exact .init
  | step _ hs ih =>
    obtain ⟨hc, hs⟩ := Option.ite_none_right_eq_some.mp hs
    exact ih.step hc hs

/-- No event of the kind `p` is enabled. -/
def Quiescent (S : System σ ε) (p : ε → Bool) (s : σ) : Prop := ∀ e, p e = true → S.step s e = none

/-- Events that decrease a measure occur at most as often as the initial measure says, and `c` times
    more for each event of the kind `q`, which may increase it by `c`. -/
theorem Trace.count_le {p q : ε → Bool} {c : ℕ} (μ : σ → ℕ) (hinit : I S.init)
    (hstep : ∀ {s e s'}, I s → S.step s e = some s' → I s')
    (hdec : ∀ {s e s'}, I s → S.step s e = some s' →
      μ s' + (if p e then 1 else 0) ≤ μ s + (if q e then c else 0))
    (h : Trace S es s) : es.countP p + μ s ≤ μ S.init + es.countP q * c := by
  induction h with
  | init => simp
  | @step es s s' e htrace hs ih =>
    have hle := hdec (htrace.invariant hinit hstep) hs
    rw [List.countP_append, List.countP_singleton, List.countP_append, List.countP_singleton,
      Nat.add_mul]
    cases hq : q e <;> simp only [hq, if_true, Bool.false_eq_true, if_false] at hle ⊢ <;> omega

end Transition

import Mathlib.Order.Filter.AtTopBot.Basic
import Mathlib.Order.Filter.AtTopBot.Tendsto

namespace Fuel

/-! # Fuelled computations — total models of code that may loop

A computation reads a fuel `n : ℕ` and returns `some a`, or `none` when the fuel ran out (or when
the code fails).  What such a program computes is its value for all large enough fuels:

* `Returns m a` — from some fuel on, `m` returns `a`; values are unique, and `Returns` composes
  along `pure` and `bind`, so a straight-line program is run one call at a time;
* `iterate body a` — a `while` loop, with the fuel as the bound on its iterations;
* `Iterates body a b` — the finite unrolling of a loop, the relation a proof about a loop builds by
  induction on its data; `Iterates.returns` turns it into `Returns`;
* `iterate_invariant` — what holds in each round holds of the result, for loops that may not end. -/

variable {α β γ : Type}

/-- A computation with a fuel argument. -/
abbrev Comp (α : Type) := ReaderT ℕ Option α

/-- The computation that returns for no fuel: an exception, an abort, a failed lookup. -/
def fail : Comp α := fun _ => none

theorem bind_run (m : Comp α) (f : α → Comp β) (n : ℕ) : (m >>= f) n = (m n).bind fun a => f a n := rfl

theorem pure_run (a : α) (n : ℕ) : (pure a : Comp α) n = some a := rfl

/-- With enough fuel `m` returns `a`. -/
def Returns (m : Comp α) (a : α) : Prop := ∀ᶠ n in Filter.atTop, m n = some a

theorem Returns.pure (a : α) : Returns (pure a : Comp α) a := Filter.Eventually.of_forall fun _ => rfl

theorem Returns.pure_of_eq {a b : α} (h : a = b) : Returns (Pure.pure a : Comp α) b := h ▸ Returns.pure a

theorem Returns.bind {m : Comp α} {f : α → Comp β} {a : α} {b : β}
    (hm : Returns m a) (hf : Returns (f a) b) : Returns (m >>= f) b := by
  filter_upwards [hm, hf] with n hmn hfn
  rw [bind_run, hmn, Option.bind_some, hfn]

/-- A computation has at most one value. -/
theorem Returns.unique {m : Comp α} {a b : α} (ha : Returns m a) (hb : Returns m b) : a = b := by
  obtain ⟨n, hna, hnb⟩ := (ha.and hb).exists
  exact Option.some.inj (hna.symm.trans hnb)

/-- An option read as a computation: `none` fails. -/
def ofOption : Option α → Comp α
  | none => fail
  | some a => pure a

theorem Returns.ofOption {o : Option α} {a : α} (h : o = some a) : Returns (ofOption o) a := by
  subst h
  exact Returns.pure a

/-! ### Loops -/

/-- At most `k` rounds of a loop: `inl` goes round again, `inr` leaves the loop. -/
def loop (body : α → Comp (α ⊕ β)) : ℕ → α → Comp β
  | 0, _ => fail
  | k + 1, a => body a >>= fun
    | .inl a' => loop body k a'
    | .inr b => pure b

/-- A loop whose number of rounds is bounded by the fuel. -/
def iterate (body : α → Comp (α ⊕ β)) (a : α) : Comp β := fun n => loop body n a n

/-- The loop started at `a` leaves with `b` after finitely many rounds. -/
inductive Iterates (body : α → Comp (α ⊕ β)) : α → β → Prop
  | done {a b} : Returns (body a) (.inr b) → Iterates body a b
  | step {a a' b} : Returns (body a) (.inl a') → Iterates body a' b → Iterates body a b

/-- A loop that leaves after finitely many rounds returns.  The number of rounds `K` is fixed by the
    unrolling; the fuel that each round needs is not, so both bounds are kept apart until the end. -/
theorem Iterates.returns {body : α → Comp (α ⊕ β)} {a : α} {b : β} (h : Iterates body a b) :
    Returns (iterate body a) b := by
  have bounded : ∃ K, ∀ᶠ n in Filter.atTop, ∀ k ≥ K, loop body k a n = some b := by
    induction h with
    | @done a b hdone =>
      refine ⟨1, ?_⟩
      filter_upwards [hdone] with n hn k hk
      obtain ⟨k, rfl⟩ : ∃ j, k = j + 1 := ⟨k - 1, by omega⟩
      show (body a n).bind _ = some b
      rw [hn]
      rfl
    | @step a a' b hstep _ ih =>
      obtain ⟨K, hK⟩ := ih
      refine ⟨K + 1, ?_⟩
      filter_upwards [hstep, hK] with n hn hKn k hk
      obtain ⟨k, rfl⟩ : ∃ j, k = j + 1 := ⟨k - 1, by omega⟩
      show (body a n).bind _ = some b
      rw [hn]
      exact hKn k (by omega)
  obtain ⟨K, hK⟩ := bounded
  filter_upwards [hK, Filter.eventually_ge_atTop K] with n hn hKn
  exact hn n hKn

/-- The invariant rule of a loop, for one fuel: `P` holds before each round, `Q` of what the loop leaves with. -/
theorem iterate_invariant {body : α → Comp (α ⊕ β)} {n : ℕ} {P : α → Prop} {Q : β → Prop}
    (hround : ∀ a out, P a → body a n = some out → out.elim P Q) {a : α} {b : β} (ha : P a)
    (h : iterate body a n = some b) : Q b := by
  -- the rounds `k` that are left and the fuel `n` of each round are separate
  suffices ∀ k a, P a → loop body k a n = some b → Q b from this n a ha h
  intro k
  induction k with
  | zero =>
    intro a _ hloop
    cases hloop
  | succ k ih =>
    intro a ha hloop
    rw [loop, bind_run, Option.bind_eq_some_iff] at hloop
    obtain ⟨r, hr, hrest⟩ := hloop
    cases r with
    | inl a' => exact ih a' (hround a _ ha hr) hrest
    | inr b' =>
      obtain rfl : b' = b := Option.some.inj hrest
      exact hround a _ ha hr

end Fuel

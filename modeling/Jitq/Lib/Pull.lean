import Jitq.Lib.Fuel
import Mathlib.Data.List.Basic
import Mathlib.Data.List.ReduceOption
import Mathlib.Data.Fintype.Basic
import Mathlib.Order.Filter.Finite

namespace Pull

open Fuel List

/-! # Pull iterators — open, next, close

A pull iterator hands out one item per `next` call, between an `open_` and a `close`.  All three run
on an explicit state, so what an iterator keeps across a `close` is visible in the model.

* `Drains p s xs s'` — from `s`, `next` returns the items `xs` and then the end of the stream;
* `Iter.foldAll` — the loop `while (x = next()) acc = f(acc, x)`, run by `Drains.foldAll`;
* `Iter.firstDrain`, `Iter.reopenDrain j` — the two runs that a re-open contract compares;
* `Replay p xs` — an invariant that makes `p` return `xs` after *every* open, however far it was read
  before it was closed.  It composes: an operator's `Replay` is built from its inputs' ones. -/

variable {τ ρ β : Type}

/-- A pull iterator on items `τ`: `fresh` is the state after construction. -/
structure Iter (τ : Type) where
  State : Type
  fresh : State
  open_ : State → Comp State
  next : State → Comp (Option τ × State)
  close : State → State

/-! ### Draining -/

/-- From `s`, `p` returns the items `xs` in order, then the end of the stream, and is in `s'`. -/
inductive Drains (p : Iter τ) : p.State → List τ → p.State → Prop
  | nil {s s'} : Returns (p.next s) (none, s') → Drains p s [] s'
  | cons {s s' s'' x xs} : Returns (p.next s) (some x, s') → Drains p s' xs s'' → Drains p s (x :: xs) s''

/-- One round of the fold loop, on the value folded so far. -/
def Iter.foldRound (p : Iter τ) (f : β → τ → Option β) (bs : β × p.State) : Comp ((β × p.State) ⊕ (β × p.State)) :=
  p.next bs.2 >>= fun
    | (none, s') => pure (.inr (bs.1, s'))
    | (some x, s') => ofOption (f bs.1 x) >>= fun b' => pure (.inl (b', s'))

/-- `while (x = next()) b = f(b, x)`; the loop fails where `f` does. -/
def Iter.foldAll (p : Iter τ) (f : β → τ → Option β) (b : β) (s : p.State) : Comp (β × p.State) :=
  iterate (p.foldRound f) (b, s)

variable {p : Iter τ} {s s' s₁ s₂ : p.State} {xs : List τ}

/-- **The fold loop computes the fold** of the items that the iterator drains. -/
theorem Drains.foldAll (h : Drains p s xs s') {f : β → τ → Option β} {b b' : β} (hf : xs.foldlM f b = some b') :
    Returns (p.foldAll f b s) (b', s') := by
  apply Iterates.returns
  induction h generalizing b with
  | nil hnext =>
    obtain rfl : b = b' := by simpa using hf
    exact .done (hnext.bind (.pure _))
  | @cons s s₁ s₂ x xs hnext _ ih =>
    obtain ⟨b1, hb1, hrest⟩ := Option.bind_eq_some_iff.mp hf
    exact .step (hnext.bind ((Returns.ofOption hb1).bind (.pure _))) (ih hrest)

theorem foldlM_some (f : β → τ → β) (b : β) (xs : List τ) :
    xs.foldlM (fun b x => some (f b x)) b = some (xs.foldl f b) := by
  induction xs generalizing b with
  | nil => rfl
  | cons x xs ih => exact ih (f b x)

/-- The fold loop of an update that cannot fail. -/
theorem Drains.foldAll_some (h : Drains p s xs s') (f : β → τ → β) (b : β) :
    Returns (p.foldAll (fun b x => some (f b x)) b s) (xs.foldl f b, s') :=
  h.foldAll (foldlM_some f b xs)

theorem foldl_concat (acc xs : List τ) : xs.foldl (fun acc x => acc ++ [x]) acc = acc ++ xs := by
  induction xs generalizing acc with
  | nil => simp
  | cons x xs ih => simp [ih]

/-- Reads the iterator to its end. -/
def Iter.drain (p : Iter τ) (s : p.State) : Comp (List τ × p.State) := p.foldAll (fun acc x => some (acc ++ [x])) [] s

theorem Drains.drain (h : Drains p s xs s') : Returns (p.drain s) (xs, s') := by
  have h' := h.foldAll_some (fun acc x => acc ++ [x]) []
  rwa [foldl_concat, nil_append] at h'

variable {ys : List τ}

/-- What an iterator drains is determined by the state. -/
theorem Drains.unique (h1 : Drains p s xs s₁) (h2 : Drains p s ys s₂) : xs = ys ∧ s₁ = s₂ := by
  induction h1 generalizing ys with
  | nil hnext =>
    cases h2 with
    | nil hnext' => exact ⟨rfl, (Prod.mk.inj (hnext.unique hnext')).2⟩
    | cons hnext' _ => exact nomatch (Prod.mk.inj (hnext.unique hnext')).1
  | cons hnext _ ih =>
    cases h2 with
    | nil hnext' => exact nomatch (Prod.mk.inj (hnext.unique hnext')).1
    | cons hnext' hrest =>
      obtain ⟨hitem, rfl⟩ := Prod.mk.inj (hnext.unique hnext')
      obtain ⟨rfl, rfl⟩ := ih hrest
      exact ⟨by rw [Option.some.inj hitem], rfl⟩

/-! ### Searching -/

/-- `while (x = next()) if (y = g(x)) return y`: the first item that `g` accepts. -/
def Iter.findNext (p : Iter τ) (g : τ → Option ρ) (s : p.State) : Comp (Option ρ × p.State) :=
  iterate (fun s => p.next s >>= fun
    | (none, s') => pure (.inr (none, s'))
    | (some x, s') => match g x with
      | none => pure (.inl s')
      | some y => pure (.inr (some y, s'))) s

/-! ### Re-opening -/

/-- `j` calls of `next`, whatever they return. -/
def Iter.nexts (p : Iter τ) : ℕ → p.State → Comp p.State
  | 0, s => pure s
  | j + 1, s => p.next s >>= fun r => p.nexts j r.2

/-- Opens the fresh iterator and reads it to its end. -/
def Iter.firstDrain (p : Iter τ) : Comp (List τ) := do
  let s ← p.open_ p.fresh
  let r ← p.drain s
  pure r.1

/-- Opens the fresh iterator, calls `next` `j` times, closes it, opens it again and reads it to its
    end. -/
def Iter.reopenDrain (p : Iter τ) (j : ℕ) : Comp (List τ) := do
  let s ← p.open_ p.fresh
  let s ← p.nexts j s
  let s ← p.open_ (p.close s)
  let r ← p.drain s
  pure r.1

theorem Drains.firstDrain (hopen : Returns (p.open_ p.fresh) s₁) (hdrain : Drains p s₁ xs s₂) :
    Returns p.firstDrain xs :=
  hopen.bind (hdrain.drain.bind (.pure _))

theorem Drains.reopenDrain {s3 s4 : p.State} {j : ℕ} (hopen : Returns (p.open_ p.fresh) s₁)
    (hnexts : Returns (p.nexts j s₁) s₂) (hreopen : Returns (p.open_ (p.close s₂)) s3) (hdrain : Drains p s3 xs s4) :
    Returns (p.reopenDrain j) xs :=
  hopen.bind (hnexts.bind (hreopen.bind (hdrain.drain.bind (.pure _))))

/-- The re-open contract: the first drain returns `xs`, and so does the drain after a re-open,
    however many items were read before the close. -/
structure Reopens (p : Iter τ) (xs : List τ) : Prop where
  first : Returns p.firstDrain xs
  again : ∀ j, Returns (p.reopenDrain j) xs

/-- An invariant of an open iterator: `Busy s ys` holds of the states in which `p` still has `ys` to
    return, and then nothing more. -/
structure Serving (p : Iter τ) where
  Busy : p.State → List τ → Prop
  next_nil : ∀ {s}, Busy s [] → ∃ s', Returns (p.next s) (none, s') ∧ Busy s' []
  next_cons : ∀ {s y ys}, Busy s (y :: ys) → ∃ s', Returns (p.next s) (some y, s') ∧ Busy s' ys

/-- An invariant under which `p` replays `xs` on every open; `Idle` holds of the states in which `p`
    may be opened. -/
structure Replay (p : Iter τ) (xs : List τ) extends Serving p where
  Idle : p.State → Prop
  fresh : Idle p.fresh
  opens : ∀ {s}, Idle s → ∃ s', Returns (p.open_ s) s' ∧ Busy s' xs
  close : ∀ {s ys}, Busy s ys → Idle (p.close s)

/-- The two cases of `Serving` in one: a `next` returns the head of what is left, if there is one. -/
def Serving.ofNext {p : Iter τ} (Busy : p.State → List τ → Prop)
    (next : ∀ {s ys}, Busy s ys → ∃ s', Returns (p.next s) (ys.head?, s') ∧ Busy s' ys.tail) :
    Serving p where
  Busy := Busy
  next_nil h := next h
  next_cons h := next h

section Serving

variable {p : Iter τ} (S : Serving p)

/-- One `next` call in terms of what is left to return. -/
theorem Serving.next {s : p.State} (h : S.Busy s ys) :
    ∃ s', Returns (p.next s) (ys.head?, s') ∧ S.Busy s' ys.tail := by
  cases ys with
  | nil => exact S.next_nil h
  | cons y ys => exact S.next_cons h

theorem Serving.drains {s : p.State} (h : S.Busy s ys) : ∃ s', Drains p s ys s' ∧ S.Busy s' [] := by
  induction ys generalizing s with
  | nil =>
    obtain ⟨s', hnext, hs'⟩ := S.next_nil h
    exact ⟨s', .nil hnext, hs'⟩
  | cons y ys ih =>
    obtain ⟨s₁, hnext, hs1⟩ := S.next_cons h
    obtain ⟨s', hdrain, hs'⟩ := ih hs1
    exact ⟨s', .cons hnext hdrain, hs'⟩

theorem Serving.nexts (j : ℕ) {s : p.State} (h : S.Busy s ys) :
    ∃ s', Returns (p.nexts j s) s' ∧ S.Busy s' (ys.drop j) := by
  induction j generalizing s ys with
  | zero => exact ⟨s, .pure s, by simpa using h⟩
  | succ j ih =>
    obtain ⟨s₁, hnext, hs1⟩ := S.next h
    obtain ⟨s', hnexts, hs'⟩ := ih hs1
    refine ⟨s', hnext.bind hnexts, ?_⟩
    rwa [drop_tail] at hs'

/-- A search returns the first accepted item and leaves the items behind it. -/
theorem Serving.findNext (g : τ → Option ρ) {s : p.State} (h : S.Busy s ys) :
    ∃ s' ys', Returns (p.findNext g s) ((ys.filterMap g).head?, s') ∧ S.Busy s' ys' ∧
      ys'.filterMap g = (ys.filterMap g).tail := by
  suffices ∃ s' ys', Iterates _ s ((ys.filterMap g).head?, s') ∧ S.Busy s' ys' ∧
      ys'.filterMap g = (ys.filterMap g).tail by
    obtain ⟨s', ys', hit, hbusy, htail⟩ := this
    exact ⟨s', ys', hit.returns, hbusy, htail⟩
  induction ys generalizing s with
  | nil =>
    obtain ⟨s', hnext, hs'⟩ := S.next_nil h
    exact ⟨s', [], .done (hnext.bind (.pure _)), hs', rfl⟩
  | cons y ys ih =>
    obtain ⟨s₁, hnext, hs1⟩ := S.next_cons h
    cases hg : g y with
    | some z =>
      refine ⟨s₁, ys, .done (hnext.bind ?_), hs1, ?_⟩
      · simpa only [hg, filterMap_cons_some hg, head?_cons] using Returns.pure _
      · rw [filterMap_cons_some hg, tail_cons]
    | none =>
      obtain ⟨s', ys', hit, hbusy, htail⟩ := ih hs1
      rw [filterMap_cons_none hg]
      refine ⟨s', ys', .step (hnext.bind ?_) hit, hbusy, htail⟩
      simpa only [hg] using Returns.pure _

end Serving

section Replay

variable {p : Iter τ} {xs : List τ} (R : Replay p xs)

/-- Opening an idle iterator and reading it to its end. -/
theorem Replay.open_drains {s : p.State} (h : R.Idle s) :
    ∃ s₁ s₂, Returns (p.open_ s) s₁ ∧ Drains p s₁ xs s₂ ∧ R.Busy s₂ [] := by
  obtain ⟨s₁, hopen, hs1⟩ := R.opens h
  obtain ⟨s₂, hdrain, hs2⟩ := R.drains hs1
  exact ⟨s₁, s₂, hopen, hdrain, hs2⟩

/-- **An iterator with a replay invariant honours the re-open contract.** -/
theorem Replay.reopens (R : Replay p xs) : Reopens p xs := by
  obtain ⟨s₁, s₂, hopen, hdrain, -⟩ := R.open_drains R.fresh
  refine ⟨hdrain.firstDrain hopen, fun j => ?_⟩
  obtain ⟨s₁, hopen, hs1⟩ := R.opens R.fresh
  obtain ⟨s₂, hnexts, hs2⟩ := R.nexts j hs1
  obtain ⟨s3, s4, hopen', hdrain', -⟩ := R.open_drains (R.close hs2)
  exact hdrain'.reopenDrain hopen hnexts hopen'

end Replay

/-! ### Streams without an end -/

/-- From the states in `I`, no `next` call returns the end of the stream, whatever the fuel. -/
structure Endless (p : Iter τ) (I : p.State → Prop) : Prop where
  next : ∀ {s n r s'}, I s → p.next s n = some (r, s') → r.isSome ∧ I s'

/-- An endless iterator cannot be drained: the fuel runs out first. -/
theorem Endless.drain_eq_none {I : p.State → Prop} (h : Endless p I) (hs : I s) (n : ℕ) : p.drain s n = none := by
  -- the rounds `k` that are left and the fuel `n` of each round are separate
  suffices ∀ k acc s, I s → loop (p.foldRound fun acc x => some (acc ++ [x])) k (acc, s) n = none
    from this n [] s hs
  intro k
  induction k with
  | zero => intro acc s _; rfl
  | succ k ih =>
    intro acc s hs
    rw [loop, bind_run, Iter.foldRound, bind_run]
    cases hnext : p.next s n with
    | none => rfl
    | some r =>
      obtain ⟨hsome, hI⟩ := h.next hs hnext
      obtain ⟨x, hx⟩ := Option.isSome_iff_exists.mp hsome
      obtain ⟨r, s'⟩ := r
      subst hx
      exact ih (acc ++ [x]) s' hI

/-- Opening an endless iterator and draining it never returns. -/
theorem Endless.not_returns_firstDrain {I : p.State → Prop} (h : Endless p I) (hopen : Returns (p.open_ p.fresh) s)
    (hs : I s) (xs : List τ) : ¬ Returns p.firstDrain xs := by
  intro hret
  obtain ⟨n, hn, hopenn⟩ := (hret.and hopen).exists
  rw [Iter.firstDrain, bind_run, hopenn, Option.bind_some, bind_run, h.drain_eq_none hs] at hn
  simp at hn

/-! ### Synchronous reads -/

/-- Runs independent computations, one for each index. -/
def seqFin {n : ℕ} {A : Fin n → Type} (m : ∀ i, Comp (A i)) : Comp (∀ i, A i) :=
  fun k => if h : ∀ i, (m i k).isSome then some fun i => (m i k).get (h i) else none

theorem Returns.seqFin {n : ℕ} {A : Fin n → Type} {m : ∀ i, Comp (A i)} {a : ∀ i, A i}
    (h : ∀ i, Returns (m i) (a i)) : Returns (seqFin m) a := by
  have hall : ∀ᶠ k in Filter.atTop, ∀ i, m i k = some (a i) := Filter.eventually_all.mpr h
  filter_upwards [hall] with k hk
  simp [Pull.seqFin, hk]

/-! ### Iterators over a list -/

/-- The iterator that returns the items of `xs` on each open. -/
def Iter.ofList (xs : List τ) : Iter τ where
  State := List τ
  fresh := []
  open_ _ := pure xs
  next
    | [] => pure (none, [])
    | y :: ys => pure (some y, ys)
  close s := s

/-- The replay invariant of a list: the state is what is left to return. -/
def Replay.ofList (xs : List τ) : Replay (Iter.ofList xs) xs where
  Idle _ := True
  Busy s ys := s = ys
  fresh := trivial
  opens _ := ⟨xs, .pure _, rfl⟩
  next_nil := by rintro _ rfl; exact ⟨_, .pure _, rfl⟩
  next_cons := by rintro _ y ys rfl; exact ⟨_, .pure _, rfl⟩
  close _ := trivial

/-! ### Logged iterators -/

/-- The same iterator, with a log of what its `next` has returned. -/
def Iter.logged (p : Iter τ) : Iter τ where
  State := p.State × List (Option τ)
  fresh := (p.fresh, [])
  open_ s := p.open_ s.1 >>= fun s' => pure (s', s.2)
  next s := p.next s.1 >>= fun r => pure (r.1, (r.2, s.2 ++ [r.1]))
  close s := (p.close s.1, s.2)

section Logged

variable {p : Iter τ} {xs : List τ} (R : Replay p xs)

/-- The logged iterator has returned the items `read`, and `left` are left. -/
def Replay.Reading (s : p.logged.State) (read left : List τ) : Prop :=
  R.Busy s.1 left ∧ s.2 = read.map some ∧ read ++ left = xs

/-- The logged iterator has returned all items and signalled the end. -/
def Replay.Ended (s : p.logged.State) : Prop := R.Busy s.1 [] ∧ none ∈ s.2 ∧ s.2.reduceOption = xs

variable {R}

theorem Replay.logged_opens {s : p.State} (h : R.Idle s) :
    ∃ s', Returns (p.logged.open_ (s, [])) s' ∧ R.Reading s' [] xs := by
  obtain ⟨s', hopen, hs'⟩ := R.opens h
  exact ⟨(s', []), hopen.bind (.pure _), hs', rfl, rfl⟩

variable {s : p.logged.State}

theorem Replay.Reading.next_cons {read ys : List τ} {y : τ} (h : R.Reading s read (y :: ys)) :
    ∃ s', Returns (p.logged.next s) (some y, s') ∧ R.Reading s' (read ++ [y]) ys := by
  obtain ⟨hbusy, hlog, hall⟩ := h
  obtain ⟨s', hnext, hs'⟩ := R.next_cons hbusy
  exact ⟨(s', s.2 ++ [some y]), hnext.bind (.pure _), hs', by simp [hlog], by simpa using hall⟩

theorem Replay.Reading.next_nil {read : List τ} (h : R.Reading s read []) :
    ∃ s', Returns (p.logged.next s) (none, s') ∧ R.Ended s' := by
  obtain ⟨hbusy, hlog, hall⟩ := h
  obtain ⟨s', hnext, hs'⟩ := R.next_nil hbusy
  refine ⟨(s', s.2 ++ [none]), hnext.bind (.pure _), hs', by simp, ?_⟩
  simp [hlog, hall, reduceOption, filterMap_map]

theorem Replay.Ended.next (h : R.Ended s) : ∃ s', Returns (p.logged.next s) (none, s') ∧ R.Ended s' := by
  obtain ⟨hbusy, hnone, hall⟩ := h
  obtain ⟨s', hnext, hs'⟩ := R.next_nil hbusy
  exact ⟨(s', s.2 ++ [none]), hnext.bind (.pure _), hs', by simp, by simp [reduceOption_append, hall]⟩

theorem Replay.Reading.drains {read ys : List τ} (h : R.Reading s read ys) :
    ∃ s', Drains p.logged s ys s' ∧ R.Ended s' := by
  induction ys generalizing s read with
  | nil =>
    obtain ⟨s', hnext, hs'⟩ := h.next_nil
    exact ⟨s', .nil hnext, hs'⟩
  | cons y ys ih =>
    obtain ⟨s₁, hnext, hs1⟩ := h.next_cons
    obtain ⟨s', hdrain, hs'⟩ := ih hs1
    exact ⟨s', .cons hnext hdrain, hs'⟩

end Logged

end Pull

import Mathlib.Data.List.Basic

namespace Checked

/-! # Computations that throw

Inversion of computations in `Except`: what is known when they return. -/

variable {ε α β : Type}

@[simp] theorem ok_bind (a : α) (f : α → Except ε β) : (Except.ok a >>= f) = f a := rfl

theorem bind_eq_ok {x : Except ε α} {f : α → Except ε β} {b : β} :
    (x >>= f) = .ok b ↔ ∃ a, x = .ok a ∧ f a = .ok b := by
  cases x with
  | error e =>
    constructor
    · exact fun h => nomatch h
    · rintro ⟨_, h, _⟩
      cases h
  | ok a =>
    constructor
    · exact fun h => ⟨a, rfl, h⟩
    · rintro ⟨_, hok, h⟩
      cases hok
      exact h

theorem forM_eq_ok {f : α → Except ε Unit} {l : List α} : l.forM f = .ok () ↔ ∀ a ∈ l, f a = .ok () := by
  induction l with
  | nil => exact ⟨fun _ _ ha => absurd ha List.not_mem_nil, fun _ => rfl⟩
  | cons b l ih =>
    rw [List.forall_mem_cons, ← ih]
    refine (bind_eq_ok (x := f b) (f := fun _ => l.forM f)).trans ?_
    constructor
    · rintro ⟨⟨⟩, hb, hrest⟩
      exact ⟨hb, hrest⟩
    · rintro ⟨hb, hrest⟩
      exact ⟨(), hb, hrest⟩

end Checked

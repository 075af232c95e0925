import Jitq.Data.Atomic

namespace Jitq

/-! # Tuples and their fields

A tuple is the list of its fields.  A field is a `long`, an atomic value of another type (a double, a
string, …) or an array of tuples.  An array is a window into shared data: `pre ++ rows ++ post` is the
data that its pointer refers to, `pre.length` its offset, `rows.length` its shape and the length of
the whole its outer shape, so a window that leaves its data cannot be written down. -/

/-- A field of a tuple. -/
inductive Value (α : Type)
  | long (n : ℤ)
  | atom (a : α)
  | array (pre rows post : List (List (Value α)))

/-- A tuple, as the list of its fields. -/
abbrev Tuple (α : Type) := List (Value α)

namespace Value

variable {α : Type}

instance : Inhabited (Value α) := ⟨.long 0⟩

/-! ### Comparisons -/

/-- The `==` of C++ on two fields of one type; there is none on arrays. -/
protected def beq [BEq α] : Value α → Value α → Bool
  | .long n, .long m => n == m
  | .atom a, .atom b => a == b
  | _, _ => false

instance [BEq α] : BEq (Value α) := ⟨Value.beq⟩

/-- The order that the generated comparisons use on two fields of one type. -/
protected def lt [LT α] : Value α → Value α → Prop
  | .long n, .long m => n < m
  | .atom a, .atom b => a < b
  | _, _ => False

instance [LT α] : LT (Value α) := ⟨Value.lt⟩

instance [LT α] [DecidableLT α] : DecidableLT (Value α)
  | .long n, .long m => inferInstanceAs (Decidable (n < m))
  | .atom a, .atom b => inferInstanceAs (Decidable (a < b))
  | .long _, .atom _ => .isFalse id
  | .long _, .array .. => .isFalse id
  | .atom _, .long _ => .isFalse id
  | .atom _, .array .. => .isFalse id
  | .array .., _ => .isFalse id

/-- Fields that are equal are two `long`s or two atomic values. -/
theorem beq_cases [BEq α] {x y : Value α} (h : x == y) :
    (∃ n, x = .long n ∧ y = .long n) ∨ ∃ a b, x = .atom a ∧ y = .atom b ∧ a == b := by
  cases x <;> cases y
  case long.long n m =>
    have heq : n = m := beq_iff_eq.mp (show (n == m) = true from h)
    exact .inl ⟨n, rfl, congrArg long heq.symm⟩
  case atom.atom a b => exact .inr ⟨a, b, rfl, rfl, h⟩
  all_goals cases h

/-- Fields of a type whose `==` is the identity. -/
theorem eq_of_beq [BEq α] [LawfulBEq α] {x y : Value α} (h : x == y) : x = y := by
  rcases beq_cases h with ⟨n, rfl, rfl⟩ | ⟨a, b, rfl, rfl, hab⟩
  · rfl
  · rw [LawfulBEq.eq_of_beq hab]

theorem lt_cases [LT α] {x y : Value α} (h : x < y) :
    (∃ n m, x = .long n ∧ y = .long m ∧ n < m) ∨ ∃ a b, x = .atom a ∧ y = .atom b ∧ a < b := by
  cases x <;> cases y
  case long.long n m => exact .inl ⟨n, m, rfl, rfl, h⟩
  case atom.atom a b => exact .inr ⟨a, b, rfl, rfl, h⟩
  all_goals cases h

theorem long_lt_long [LT α] {n m : ℤ} : (Value.long n : Value α) < .long m ↔ n < m := Iff.rfl

theorem atom_lt_atom [LT α] {a b : α} : Value.atom a < .atom b ↔ a < b := Iff.rfl

/-- Fields are compared like their values. -/
instance [BEq α] [LT α] [Comparable α] : Comparable (Value α) where
  symm {x y} h := by
    rcases beq_cases h with ⟨n, rfl, rfl⟩ | ⟨a, b, rfl, rfl, hab⟩
    · exact h
    · exact BEq.symm (α := α) hab
  trans {x y z} hxy hyz := by
    rcases beq_cases hxy with ⟨n, rfl, rfl⟩ | ⟨a, b, rfl, rfl, hab⟩
    · exact hyz
    · rcases beq_cases hyz with ⟨_, hb, -⟩ | ⟨_, c, hb, rfl, hbc⟩
      · cases hb
      · cases hb
        exact BEq.trans (α := α) hab hbc
  lt_irrefl x h := by
    rcases lt_cases h with ⟨n, m, rfl, hm, hlt⟩ | ⟨a, b, rfl, hb, hlt⟩
    · cases hm
      exact lt_irrefl n hlt
    · cases hb
      exact Comparable.lt_irrefl a hlt
  lt_trans {x y z} hxy hyz := by
    rcases lt_cases hxy with ⟨n, m, rfl, rfl, hnm⟩ | ⟨a, b, rfl, rfl, hab⟩
    · rcases lt_cases hyz with ⟨_, k, hm, rfl, hmk⟩ | ⟨_, _, hm, -⟩ <;> cases hm
      exact long_lt_long.mpr (hnm.trans hmk)
    · rcases lt_cases hyz with ⟨_, _, hb, -⟩ | ⟨_, c, hb, rfl, hbc⟩ <;> cases hb
      exact atom_lt_atom.mpr (Comparable.lt_trans hab hbc)
  beq_false_of_lt {x y} h := by
    rcases lt_cases h with ⟨n, m, rfl, rfl, hlt⟩ | ⟨a, b, rfl, rfl, hlt⟩
    · exact beq_false_of_ne (α := ℤ) hlt.ne
    · exact Comparable.beq_false_of_lt (α := α) hlt

/-! ### Arithmetic -/

/-- `+` and `-` on two fields of one type. -/
instance [Arith α] : Arith (Value α) where
  plus
    | .long n, .long m => .long (Arith.plus n m)
    | .atom a, .atom b => .atom (Arith.plus a b)
    | x, _ => x
  minus
    | .long n, .long m => .long (Arith.minus n m)
    | .atom a, .atom b => .atom (Arith.minus a b)
    | x, _ => x

/-- The number in a `long` field. -/
def asLong : Value α → ℤ
  | .long n => n
  | _ => 0

end Value

namespace Tuple

variable {α : Type}

/-- The first field of a tuple. -/
def v0 (t : Tuple α) : Value α := t.headD default

end Tuple

end Jitq

import Mathlib.Data.BitVec
import Mathlib.Data.List.Basic
import Mathlib.Data.Int.Order.Basic

namespace Jitq

/-! # Atomic values

The values of the six atomic types as the generated code holds them, with the `==`, the `<`, the `+`
and the `-` of C++.  A `float` or a `double` is its IEEE-754 bit pattern, so that the two zeros and
the NaNs are told apart:

* `Comparable` — `==` is symmetric and transitive, though not reflexive, and `<` is a strict order;
* `Atom.beq`, `Atom.lt` — two zeros are equal, and a NaN is neither equal to nor less than anything;
* `Arith` — sums and differences as the machine computes them: integers wrap around, and the result
  of a floating-point operation is rounded. -/

/-! ### What the generated code computes with values -/

/-- The comparisons of C++ on the values of a type. -/
class Comparable (α : Type) [BEq α] [LT α] : Prop extends PartialEquivBEq α where
  lt_irrefl : ∀ a : α, ¬ a < a
  lt_trans : ∀ {a b c : α}, a < b → b < c → a < c
  beq_false_of_lt : ∀ {a b : α}, a < b → (a == b) = false

/-- The `+` and the `-` of C++ on the values of a type. -/
class Arith (α : Type) where
  plus : α → α → α
  minus : α → α → α

/-- 64-bit two's complement arithmetic: the `long` that an integer is stored as. -/
def wrap64 (n : ℤ) : ℤ := Int.bmod n (2 ^ 64)

/-- The arithmetic of `long`s. -/
instance longArith : Arith ℤ where
  plus a b := wrap64 (a + b)
  minus a b := wrap64 (a - b)

/-- The comparisons of `long`s. -/
instance : Comparable ℤ where
  symm h := beq_iff_eq.mpr (beq_iff_eq.mp h).symm
  trans hab hbc := beq_iff_eq.mpr ((beq_iff_eq.mp hab).trans (beq_iff_eq.mp hbc))
  lt_irrefl := lt_irrefl
  lt_trans := lt_trans
  beq_false_of_lt h := beq_false_of_ne h.ne

/-! ### Floating-point numbers -/

/-- The magnitude of a floating-point number: all bits but the sign, which is the highest one. -/
def magnitude {w : ℕ} (bits : BitVec (w + 1)) : BitVec w := bits.setWidth w

/-- `==` on floating-point numbers whose infinity has the magnitude `inf`: NaNs, which have a greater one,
    are equal to nothing, and zeros of both signs are equal. -/
def floatEq {w : ℕ} (inf : BitVec w) (a b : BitVec (w + 1)) : Bool :=
  magnitude a ≤ inf && magnitude b ≤ inf && (a == b || (magnitude a == 0 && magnitude b == 0))

section

variable {w : ℕ} {inf : BitVec w} {a b c : BitVec (w + 1)}

/-- Equality of floating-point numbers as a proposition. -/
theorem floatEq_iff : floatEq inf a b ↔
    (magnitude a ≤ inf ∧ magnitude b ≤ inf) ∧ (a = b ∨ (magnitude a = 0 ∧ magnitude b = 0)) := by
  simp [floatEq]

theorem floatEq_symm (h : floatEq inf a b) : floatEq inf b a := by
  obtain ⟨⟨ha, hb⟩, heq⟩ := floatEq_iff.mp h
  exact floatEq_iff.mpr ⟨⟨hb, ha⟩, heq.imp Eq.symm And.symm⟩

theorem floatEq_trans (hab : floatEq inf a b) (hbc : floatEq inf b c) : floatEq inf a c := by
  obtain ⟨⟨ha, -⟩, hab⟩ := floatEq_iff.mp hab
  obtain ⟨⟨-, hc⟩, hbc⟩ := floatEq_iff.mp hbc
  refine floatEq_iff.mpr ⟨⟨ha, hc⟩, ?_⟩
  rcases hab with rfl | ⟨hzero, hzero'⟩
  · exact hbc
  · rcases hbc with rfl | ⟨-, hzero''⟩
    · exact .inr ⟨hzero, hzero'⟩
    · exact .inr ⟨hzero, hzero''⟩

/-- The place of a number in the order of the numbers. -/
def signedMagnitude (a : BitVec (w + 1)) : ℤ :=
  if a.msb then -(magnitude a).toNat else (magnitude a).toNat

/-- `<` on floating-point numbers: NaNs are not compared. -/
def floatLt (inf : BitVec w) (a b : BitVec (w + 1)) : Bool :=
  magnitude a ≤ inf && magnitude b ≤ inf && decide (signedMagnitude a < signedMagnitude b)

theorem floatLt_iff : floatLt inf a b ↔
    (magnitude a ≤ inf ∧ magnitude b ≤ inf) ∧ signedMagnitude a < signedMagnitude b := by
  simp [floatLt]

theorem floatLt_trans (hab : floatLt inf a b) (hbc : floatLt inf b c) : floatLt inf a c := by
  obtain ⟨⟨ha, -⟩, hab⟩ := floatLt_iff.mp hab
  obtain ⟨⟨-, hc⟩, hbc⟩ := floatLt_iff.mp hbc
  exact floatLt_iff.mpr ⟨⟨ha, hc⟩, hab.trans hbc⟩

/-- Equal numbers have one place in the order. -/
theorem floatEq_false_of_lt (h : floatLt inf a b) : floatEq inf a b = false := by
  by_contra heq
  rw [Bool.not_eq_false] at heq
  have hlt := (floatLt_iff.mp h).2
  rcases (floatEq_iff.mp heq).2 with rfl | ⟨ha, hb⟩
  · exact lt_irrefl _ hlt
  · simp [signedMagnitude, ha, hb] at hlt

/-- A finite number in units of the smallest one, if `fraction` bits of it are its fraction. -/
def units (fraction : ℕ) (a : BitVec (w + 1)) : ℤ :=
  let m := (magnitude a).toNat
  let n := if m < 2 ^ fraction then m
    else (2 ^ fraction + m % 2 ^ fraction) * 2 ^ (m / 2 ^ fraction - 1)
  if a.msb then -n else n

/-- The magnitude of the number that is nearest to `n` units, ties to even. -/
def nearestMagnitude (fraction n : ℕ) : ℕ :=
  let exponent := n.log2 - fraction
  let unit := 2 ^ exponent
  let significand := n / unit
  let rest := n % unit
  let roundsUp := unit < 2 * rest ∨ unit = 2 * rest ∧ significand % 2 = 1
  exponent * 2 ^ fraction + if roundsUp then significand + 1 else significand

/-- The sum of two floating-point numbers: the exact sum of two finite ones is rounded once. -/
def floatAdd (fraction : ℕ) (inf : BitVec w) (a b : BitVec (w + 1)) : BitVec (w + 1) :=
  if inf < magnitude a ∨ inf < magnitude b ∨
      (magnitude a = inf ∧ magnitude b = inf ∧ a.msb ≠ b.msb) then
    BitVec.cons false (inf + 1)
  else if magnitude a = inf then a
  else if magnitude b = inf then b
  else
    let sum := units fraction a + units fraction b
    let sign := if sum = 0 then a.msb && b.msb else decide (sum < 0)
    BitVec.cons sign (BitVec.ofNat w (min inf.toNat (nearestMagnitude fraction sum.natAbs)))

/-- The difference of two floating-point numbers. -/
def floatSub (fraction : ℕ) (inf : BitVec w) (a b : BitVec (w + 1)) : BitVec (w + 1) :=
  floatAdd fraction inf a (BitVec.cons (!b.msb) (magnitude b))

end

/-! ### Atoms -/

/-- The atomic types. -/
inductive AtomicType
  | bool
  | int
  | long
  | float
  | double
  | string
  deriving DecidableEq

/-- The name of an atomic type, as in C++. -/
def AtomicType.name : AtomicType → String
  | bool => "bool"
  | int => "int"
  | long => "long"
  | float => "float"
  | double => "double"
  | string => "std::string"

/-- A value of an atomic type. -/
inductive Atom
  | bool (b : Bool)
  | int (n : BitVec 32)
  | long (n : BitVec 64)
  | float (bits : BitVec 32)
  | double (bits : BitVec 64)
  | string (chars : List (BitVec 8))
  deriving DecidableEq

namespace Atom

/-- The type of a value. -/
def type : Atom → AtomicType
  | bool _ => .bool
  | int _ => .int
  | long _ => .long
  | float _ => .float
  | double _ => .double
  | string _ => .string

/-- The magnitude of an infinite `float`. -/
def floatInf : BitVec 31 := 0x7f800000

/-- The magnitude of an infinite `double`. -/
def doubleInf : BitVec 63 := 0x7ff0000000000000

/-- The `==` of C++ on two values; the generated code compares values of one type only. -/
protected def beq : Atom → Atom → Bool
  | bool a, bool b => a == b
  | int a, int b => a == b
  | long a, long b => a == b
  | float a, float b => floatEq floatInf a b
  | double a, double b => floatEq doubleInf a b
  | string a, string b => a == b
  | _, _ => false

instance : BEq Atom := ⟨Atom.beq⟩

/-- The `<` of C++ on two values; the generated code compares values of one type only. -/
protected def lt : Atom → Atom → Bool
  | bool a, bool b => !a && b
  | int a, int b => a.slt b
  | long a, long b => a.slt b
  | float a, float b => floatLt floatInf a b
  | double a, double b => floatLt doubleInf a b
  | string a, string b => a.map BitVec.toNat < b.map BitVec.toNat
  | _, _ => false

instance : LT Atom := ⟨fun a b => Atom.lt a b⟩

instance : DecidableLT Atom := fun a b => inferInstanceAs (Decidable (Atom.lt a b = true))

/-- No value is less than itself. -/
theorem lt_self (a : Atom) : Atom.lt a a = false := by
  cases a <;> simp [Atom.lt, floatLt, BitVec.slt, List.lt_irrefl]

/-- The comparisons of atomic values are those of their types. -/
instance : Comparable Atom where
  symm {a b} h := by
    change Atom.beq a b = true at h
    change Atom.beq b a = true
    cases a <;> cases b <;> first
      | exact floatEq_symm h
      | simp_all [Atom.beq]
  trans {a b c} hab hbc := by
    change Atom.beq a b = true at hab
    change Atom.beq b c = true at hbc
    change Atom.beq a c = true
    cases a <;> cases b <;> first
      | cases hab
      | cases c <;> first
        | exact floatEq_trans hab hbc
        | simp_all [Atom.beq]
  lt_irrefl a h := by
    change Atom.lt a a = true at h
    rw [lt_self] at h
    cases h
  lt_trans {a b c} hab hbc := by
    change Atom.lt a b = true at hab
    change Atom.lt b c = true at hbc
    change Atom.lt a c = true
    cases a <;> cases b <;> first
      | cases hab
      | cases c <;> first
        | exact floatLt_trans hab hbc
        | cases hbc
        | simp_all [Atom.lt, BitVec.slt] <;> first | omega | exact List.lt_trans hab hbc
  beq_false_of_lt {a b} h := by
    change Atom.lt a b = true at h
    change Atom.beq a b = false
    cases a <;> cases b <;> first
      | rfl
      | exact floatEq_false_of_lt h
      | refine Bool.eq_false_iff.mpr fun heq => ?_
        simp only [Atom.beq, beq_iff_eq] at heq
        rw [heq, lt_self] at h
        cases h

/-- `+` and `-` of a type that has them: the generated code does not compile with the others. -/
instance : Arith Atom where
  plus
    | int a, int b => int (a + b)
    | long a, long b => long (a + b)
    | float a, float b => float (floatAdd 23 floatInf a b)
    | double a, double b => double (floatAdd 52 doubleInf a b)
    | a, _ => a
  minus
    | int a, int b => int (a - b)
    | long a, long b => long (a - b)
    | float a, float b => float (floatSub 23 floatInf a b)
    | double a, double b => double (floatSub 52 doubleInf a b)
    | a, _ => a

/-- Equal values have one type. -/
theorem type_eq_of_beq {a b : Atom} (h : a == b) : a.type = b.type := by
  cases a <;> cases b <;> first
    | rfl
    | cases h

end Atom

end Jitq

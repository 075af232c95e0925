import Jitq.Data.Atomic
import Jitq.Operators.Joins
import Jitq.Optimize.OutputType

namespace Jitq.Operators

open Fuel Pull HashTable Checked Optimize List

/-! # The joins on tuples of typed fields

`Operators.Joins` runs the hash joins on any keys and values.  Here they run on tuples as the generated code
has them: lists of fields of which the first ones are the key, compared with the `==` of C++.

* `join_computes_equiJoin` — `JoinOperator` returns the equi-join in the order of the right input, and its
  tuples have the type that `ComputeOutputType` gives the join;
* `filteringJoins_split_iff` — `AntiJoin` and `SemiJoin` split the left input, and `AntiJoinPredicated`
  refines `AntiJoin`.  It hands its function the key of the left tuple in the place of the right one's, so
  the result is the right one for every function exactly if equal keys are the same: `0.0` and `-0.0` are
  equal keys that a function can tell apart. -/

/-- A field of a tuple: an atomic value, or an array, whose contents no join looks at. -/
inductive Field (A : Type)
  | atom (a : Atom)
  | array (layout : ArrayLayout) (numDimensions : ℕ) (tupleType : TupleType) (data : A)
  deriving DecidableEq

namespace Field

variable {A : Type}

/-- The type of a field. -/
def type : Field A → FieldType
  | atom a => .atomic a.type.name
  | array layout numDimensions tupleType _ => .array layout numDimensions tupleType

/-- `==` on the fields of a key, which are atomic. -/
protected def beq : Field A → Field A → Bool
  | atom a, atom b => a == b
  | _, _ => false

instance : BEq (Field A) := ⟨Field.beq⟩

theorem beq_iff {a b : Field A} : a == b ↔ ∃ x y, a = atom x ∧ b = atom y ∧ x == y := by
  constructor
  · intro h
    cases a with
    | array => cases h
    | atom x => cases b with
      | array => cases h
      | atom y => exact ⟨x, y, rfl, rfl, h⟩
  · rintro ⟨x, y, rfl, rfl, h⟩
    exact h

instance : PartialEquivBEq (Field A) where
  symm h := by
    obtain ⟨x, y, rfl, rfl, h⟩ := beq_iff.mp h
    exact beq_iff.mpr ⟨y, x, rfl, rfl, BEq.symm h⟩
  trans hab hbc := by
    obtain ⟨x, y, rfl, rfl, hxy⟩ := beq_iff.mp hab
    obtain ⟨_, z, hy, rfl, hyz⟩ := beq_iff.mp hbc
    cases hy
    exact beq_iff.mpr ⟨x, z, rfl, rfl, BEq.trans hxy hyz⟩

theorem type_eq_of_beq {a b : Field A} (h : a == b) : a.type = b.type := by
  obtain ⟨x, y, rfl, rfl, h⟩ := beq_iff.mp h
  show FieldType.atomic x.type.name = FieldType.atomic y.type.name
  rw [Atom.type_eq_of_beq h]

theorem types_eq_of_beq {as bs : List (Field A)} (h : as == bs) : as.map type = bs.map type := by
  have htypes := (beq_iff_forall₂.mp h).imp fun _ _ hab => type_eq_of_beq hab
  rw [← forall₂_eq_eq_eq, forall₂_map_left_iff, forall₂_map_right_iff]
  exact htypes

end Field

variable {A : Type} {ul ur : Iter (List (Field A))} {ls rs : List (List (Field A))}

/-! ### Join -/

/-- `JoinOperator<…, kNumKeys>` on tuples of fields. -/
def fieldJoin (k : ℕ) (ul ur : Iter (List (Field A))) : Iter (List (Field A)) :=
  joinOperator (splitTupleParameter k) (splitTupleParameter k) (fun key left right => key ++ left ++ right) ul ur

/-- The equi-join on the first `k` fields: for each right tuple in order, for each left tuple with the same key
    in order, the key and the other fields of both. -/
def equiJoin (k : ℕ) (ls rs : List (List (Field A))) : List (List (Field A)) :=
  rs.flatMap fun r => (ls.filter fun l => l.take k == r.take k).map fun l =>
    r.take k ++ l.drop k ++ r.drop k

theorem joinRows_eq_equiJoin (k : ℕ) : joinRows (splitTupleParameter k) (splitTupleParameter k)
    (fun key left right => key ++ left ++ right) ls rs = equiJoin k ls rs := by
  refine congrArg (fun f => flatMap f rs) (funext fun r => ?_)
  unfold joinRowsOf joinMatches valuesOf
  rw [filter_map, map_map, map_map]
  rfl

/-- The tuples of an equi-join have the fields of the left type and the right ones behind the key. -/
theorem types_equiJoin {k : ℕ} {left right : TupleType} (hls : ∀ l ∈ ls, l.map Field.type = left)
    (hrs : ∀ r ∈ rs, r.map Field.type = right) :
    ∀ t ∈ equiJoin k ls rs, t.map Field.type = left ++ right.drop k := by
  intro t ht
  obtain ⟨r, hr, ht⟩ := mem_flatMap.mp ht
  obtain ⟨l, hl, rfl⟩ := mem_map.mp ht
  obtain ⟨hl, hkey⟩ := mem_filter.mp hl
  calc (r.take k ++ l.drop k ++ r.drop k).map Field.type
      = (r.take k).map Field.type ++ (l.drop k).map Field.type ++ (r.drop k).map Field.type := by
        rw [map_append, map_append]
    _ = (l.take k).map Field.type ++ (l.drop k).map Field.type ++ (r.drop k).map Field.type := by
        rw [Field.types_eq_of_beq hkey]
    _ = left ++ right.drop k := by
        rw [← map_append, take_append_drop, hls l hl, map_drop, hrs r hr]

theorem computeOutputType_join {n k : ℕ} {dag : OpDag (NestedDag n)} {v : ℕ}
    {left right type : TupleType} (hcls : (dag.op v).operator.cls = .join k)
    (hleft : predecessorTypeOn dag v 0 = .ok left) (hright : predecessorTypeOn dag v 1 = .ok right)
    (htype : computeOutputType dag v = .ok type) : type = left ++ right.drop k := by
  rw [computeOutputType, hcls] at htype
  simp only [hleft, hright, ok_bind] at htype
  obtain ⟨-, -, htype⟩ := bind_eq_ok.mp htype
  exact (Except.ok.inj htype).symm

theorem join_computes_equiJoin (k : ℕ) (RL : Replay ul ls) (RR : Replay ur rs) :
    Returns (fieldJoin k ul ur).firstDrain (equiJoin k ls rs) ∧
      ∀ {n : ℕ} (dag : OpDag (NestedDag n)) (v : ℕ) (left right type : TupleType),
        (dag.op v).operator.cls = .join k →
        predecessorTypeOn dag v 0 = .ok left → (∀ l ∈ ls, l.map Field.type = left) →
        predecessorTypeOn dag v 1 = .ok right → (∀ r ∈ rs, r.map Field.type = right) →
        computeOutputType dag v = .ok type → ∀ t ∈ equiJoin k ls rs, t.map Field.type = type := by
  constructor
  · rw [← joinRows_eq_equiJoin]
    exact join_firstDrain _ _ RL RR
  · intro n dag v left right type hcls hleft hls hright hrs htype
    rw [computeOutputType_join hcls hleft hright htype]
    exact types_equiJoin hls hrs

/-- The keys `0.0` and `-0.0`. -/
def zeroKey : Field Unit := .atom (.double 0)

def negativeZeroKey : Field Unit := .atom (.double 0x8000000000000000)

/-- A NaN. -/
def nanKey : Field Unit := .atom (.double 0x7ff8000000000000)

example : equiJoin 1 [[zeroKey, .atom (.long 1)], [nanKey, .atom (.long 2)], [zeroKey, .atom (.long 3)]]
    [[nanKey], [negativeZeroKey, .atom (.bool true)]] = [[negativeZeroKey, .atom (.long 1), .atom (.bool true)],
        [negativeZeroKey, .atom (.long 3), .atom (.bool true)]] := by decide

/-! ### AntiJoin, SemiJoin and AntiJoinPredicated -/

/-- `SplitTuple` splits behind the first field. -/
def keyTuple (t : List (Field A)) : List (Field A) := (splitTupleParameter 1 t).1

/-- Two tuples have the same key, for `KeyTypeEquals`. -/
def sameKey (l r : List (Field A)) : Bool := keyTuple l == keyTuple r

/-- `AntiJoinOperator` on tuples of fields. -/
def fieldAntiJoin (ul ur : Iter (List (Field A))) : Iter (List (Field A)) := antiJoinOperator keyTuple keyTuple ul ur

/-- `SemiJoinOperator` on tuples of fields. -/
def fieldSemiJoin (ul ur : Iter (List (Field A))) : Iter (List (Field A)) := semiJoinOperator keyTuple keyTuple ul ur

variable (function : List (Field A) → List (Field A) → Bool)

/-- `AntiJoinPredicatedOperator` on tuples of fields. -/
def fieldAntiJoinPredicated
    (ul ur : Iter (List (Field A))) : Iter (List (Field A)) :=
  antiJoinPredicatedOperator function (splitTupleParameter 1) (splitTupleParameter 1) (· ++ ·) ul ur

/-- The left tuples for which no right tuple with the same key satisfies the function. -/
def unsatisfied (ls rs : List (List (Field A))) :
    List (List (Field A)) :=
  ls.filter fun l => !rs.any fun r => sameKey l r && function l r

/-- The laws that relate the three joins: `AntiJoin` and `SemiJoin` split the left input between them,
    `AntiJoinPredicated` returns the unsatisfied tuples for every function, and `AntiJoin` is the case of the
    function that is always true. -/
def FilteringJoinsSplit (ul ur : Iter (List (Field A))) (ls rs : List (List (Field A))) : Prop :=
  ∃ anti semi, Returns (fieldAntiJoin ul ur).firstDrain anti ∧ Returns (fieldSemiJoin ul ur).firstDrain semi ∧
    anti.Sublist ls ∧ semi.Sublist ls ∧ (anti ++ semi).Perm ls ∧ semi = ls.filter (fun l => rs.any (sameKey l)) ∧
    (∀ function, Returns (fieldAntiJoinPredicated function ul ur).firstDrain (unsatisfied function ls rs)) ∧
    Returns (fieldAntiJoinPredicated (fun _ _ => true) ul ur).firstDrain anti

theorem contains_keyTuples (l : List (Field A)) : (rs.map keyTuple).contains (keyTuple l) = rs.any (sameKey l) := by
  rw [contains_eq_any_beq, any_map]
  rfl

theorem keySetJoin_firstDrain (keep : Bool) (RL : Replay ul ls) (RR : Replay ur rs) :
    Returns (keySetJoinOperator keep keyTuple keyTuple ul ur).firstDrain
      (ls.filter fun l => rs.any (sameKey l) = keep) := by
  have hrows : keySetJoinRows keep keyTuple keyTuple ls rs = ls.filter fun l => rs.any (sameKey l) = keep := by
    simp only [keySetJoinRows, contains_keyTuples]
  rw [← hrows]
  exact (keySetJoinReplay RL RR).reopens.first

theorem antiJoin_firstDrain (RL : Replay ul ls) (RR : Replay ur rs) :
    Returns (fieldAntiJoin ul ur).firstDrain (ls.filter fun l => !rs.any (sameKey l)) := by
  have hdrain := keySetJoin_firstDrain false RL RR
  simp only [Bool.decide_eq_false] at hdrain
  exact hdrain

theorem semiJoin_firstDrain (RL : Replay ul ls) (RR : Replay ur rs) :
    Returns (fieldSemiJoin ul ur).firstDrain (ls.filter fun l => rs.any (sameKey l)) := by
  have hdrain := keySetJoin_firstDrain true RL RR
  simp only [Bool.decide_eq_true] at hdrain
  exact hdrain

/-- The tuple that the function is called with for the right tuple `r`. -/
def withKeyOf (l r : List (Field A)) : List (Field A) := keyTuple l ++ r.drop 1

theorem withKeyOf_eq_self {l r : List (Field A)} (h : keyTuple l = keyTuple r) : withKeyOf l r = r := by
  rw [withKeyOf, h]
  exact take_append_drop 1 r

theorem keyTuple_withKeyOf {l : List (Field A)} (hl : l ≠ []) (r : List (Field A)) :
    keyTuple (withKeyOf l r) = keyTuple l := by
  cases l with
  | nil => exact absurd rfl hl
  | cons x l => rfl

theorem antiJoinPredicated_firstDrain
    (RL : Replay ul ls) (RR : Replay ur rs) : Returns (fieldAntiJoinPredicated function ul ur).firstDrain
      (unsatisfied (fun l r => function l (withKeyOf l r)) ls rs) := by
  have hrows : antiJoinPredicatedRows function (splitTupleParameter 1) (splitTupleParameter 1) (· ++ ·) ls rs =
      unsatisfied (fun l r => function l (withKeyOf l r)) ls rs := by
    refine filter_congr fun l _ => congrArg (!·) (congrArg rs.any (funext fun r => ?_))
    rw [sameKey, BEq.comm]
    rfl
  rw [← hrows]
  exact (antiJoinPredicatedReplay RL RR).reopens.first

/-- The function that is true of one right tuple finds out whether the operator passes that tuple on. -/
theorem keyTuple_eq_of_unsatisfied (hrows : ∀ function : List (Field A) → List (Field A) → Bool,
      unsatisfied (fun l r => function l (withKeyOf l r)) ls rs = unsatisfied function ls rs)
    {l r : List (Field A)} (hl : l ∈ ls) (hr : r ∈ rs) (hkey : sameKey l r) : keyTuple l = keyTuple r := by
  classical
  by_contra hne
  have hnil : l ≠ [] := by
    rintro rfl
    cases r with
    | nil => exact hne rfl
    | cons x r => cases hkey
  have hin : l ∈ unsatisfied (fun l r' => decide (withKeyOf l r' = r)) ls rs := by
    refine mem_filter.mpr ⟨hl, ?_⟩
    simp only [Bool.not_eq_eq_eq_not, Bool.not_true, any_eq_false, Bool.and_eq_true, decide_eq_true_eq, not_and]
    intro r' _ _ heq
    exact hne ((keyTuple_withKeyOf hnil r').symm.trans (congrArg keyTuple heq))
  rw [hrows fun _ r' => decide (r' = r)] at hin
  have hout := (mem_filter.mp hin).2
  simp only [Bool.not_eq_eq_eq_not, Bool.not_true, any_eq_false, Bool.and_eq_true, decide_eq_true_eq, not_and] at hout
  exact hout r hr hkey rfl

theorem unsatisfied_withKeyOf (hkeys : ∀ l ∈ ls, ∀ r ∈ rs, sameKey l r → keyTuple l = keyTuple r)
    (function : List (Field A) → List (Field A) → Bool) :
    unsatisfied (fun l r => function l (withKeyOf l r)) ls rs = unsatisfied function ls rs := by
  refine filter_congr fun l hl => congrArg (!·) ?_
  rw [Bool.eq_iff_iff, any_eq_true, any_eq_true]
  refine exists_congr fun r => and_congr_right fun hr => ?_
  rw [Bool.and_eq_true, Bool.and_eq_true]
  refine and_congr_right fun hkey => ?_
  show function l (withKeyOf l r) ↔ _
  rw [withKeyOf_eq_self (hkeys l hl r hr hkey)]

theorem filteringJoins_split_iff (RL : Replay ul ls) (RR : Replay ur rs) :
    FilteringJoinsSplit ul ur ls rs ↔ ∀ l ∈ ls, ∀ r ∈ rs, sameKey l r → keyTuple l = keyTuple r := by
  constructor
  · rintro ⟨-, -, -, -, -, -, -, -, hpredicated, -⟩ l hl r hr hkey
    refine keyTuple_eq_of_unsatisfied (fun function => ?_) hl hr hkey
    exact (antiJoinPredicated_firstDrain function RL RR).unique (hpredicated function)
  · intro hkeys
    refine ⟨_, _, antiJoin_firstDrain RL RR, semiJoin_firstDrain RL RR, filter_sublist,
      filter_sublist, ?_, rfl, fun function => ?_, ?_⟩
    · exact perm_append_comm.trans (filter_append_perm (fun l => rs.any (sameKey l)) ls)
    · rw [← unsatisfied_withKeyOf hkeys function]
      exact antiJoinPredicated_firstDrain function RL RR
    · -- a function that is always true leaves the test for a partner
      have hall : unsatisfied (fun _ _ => true) ls rs = ls.filter fun l => !rs.any (sameKey l) := by
        simp only [unsatisfied, Bool.and_true]
      rw [← hall]
      exact antiJoinPredicated_firstDrain _ RL RR

/-- Accepts a right tuple whose first field is a negative `double`. -/
def negativeRight (_ r : List (Field Unit)) : Bool :=
  match r with
  | .atom (.double bits) :: _ => bits.msb
  | _ => false

/-- `AntiJoinPredicated` returns the left tuple `(0.0)` although the right tuple `(-0.0)` has the same key and
    satisfies the function. -/
theorem antiJoinPredicated_keeps_satisfied :
    ¬ Returns (fieldAntiJoinPredicated negativeRight (Iter.ofList [[zeroKey]])
        (Iter.ofList [[negativeZeroKey]])).firstDrain
      (unsatisfied negativeRight [[zeroKey]] [[negativeZeroKey]]) := by
  intro h
  have hrows := (antiJoinPredicated_firstDrain negativeRight (Replay.ofList [[zeroKey]])
    (Replay.ofList [[negativeZeroKey]])).unique h
  revert hrows
  decide

end Jitq.Operators

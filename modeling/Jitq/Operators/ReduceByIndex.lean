import Jitq.Operators.Blocking
import Mathlib.Data.BitVec

namespace Jitq.Operators

open Fuel Pull HashTable List

/-! # ReduceByIndex — two vectors and a check of the index

`ReduceByIndexOperator` has one vector of values and one of presence bits, and two iterators that run over them.  The
key minus the lower bound is a 64-bit difference, which `at` takes as an unsigned index.

* `indexOf_lt_iff` — the unsigned index is below the size of the vectors exactly if the key is within the bounds,
  also where the difference wraps around;
* `reduceInto_of_lt` — the two vectors stay in step: together they are the one vector of optional values of
  `Operators.Blocking`;
* `reduceByIndex_refines_reduceByKey` — the operator returns the tuples of `ReduceByKeyOperator` by increasing key,
  or throws in front of the first tuple with a key out of bounds. -/

variable {τ ρ V : Type}

/-- The two vectors. -/
structure IndexVectors (V : Type) where
  innerVector : List V
  presenceVector : List Bool

/-- The index of a key: the 64-bit difference to the lower bound, taken as unsigned. -/
def indexOf (lo key : BitVec 64) : ℕ := (key - lo).toNat

section ReduceByIndex

variable (lo hi : BitVec 64) (splitTuple : τ → BitVec 64 × V) (func : V → V → V)
    (tupleCat : BitVec 64 × V → ρ)

variable (s : IndexVectors V)

/-- The loop body of `ReduceByIndexOperator::open`.  The assignment evaluates its right side first; where `at` throws,
    the vectors stay as they are then. -/
def reduceInto (kv : BitVec 64 × V) : Except (IndexVectors V) (IndexVectors V) :=
  let key := indexOf lo kv.1
  match s.presenceVector[key]? with
  | none => .error s
  | some present =>
    match if present then s.innerVector[key]?.map (func · kv.2) else some kv.2 with
    | none => .error s
    | some value =>
      if key < s.innerVector.length then
        .ok ⟨s.innerVector.set key value, s.presenceVector.set key true⟩
      else .error s

/-- The members of `ReduceByIndexOperator`, with its iterators as positions. -/
structure IndexState (σ V : Type) where
  upstream : σ
  vectors : IndexVectors V
  iterValues : ℕ
  iterPresence : ℕ

/-- One round of the loop of `open`. -/
def indexRound (upstream : Iter τ) (s : IndexVectors V × upstream.State) : Comp ((IndexVectors V × upstream.State) ⊕
      Except (IndexVectors V) (IndexState upstream.State V)) :=
  upstream.next s.2 >>= fun
    | (none, u) => pure (.inr (.ok ⟨u, s.1, 0, 0⟩))
    | (some ret, u) => match reduceInto lo func s.1 (splitTuple ret) with
      | .ok vectors => pure (.inl (vectors, u))
      | .error vectors => pure (.inr (.error vectors))

/-- `open()`, with the vectors at the throw if it throws. -/
def indexOpen (upstream : Iter τ) (s : IndexState upstream.State V) :
    Comp (Except (IndexVectors V) (IndexState upstream.State V)) := do
  let u ← upstream.open_ s.upstream
  iterate (indexRound lo splitTuple func upstream) (s.vectors, u)

/-- One round of the loop of `next`. -/
def indexNextRound {σ : Type} (s : IndexState σ V) : Comp (IndexState σ V ⊕ (Option ρ × IndexState σ V)) :=
  if s.iterValues = s.vectors.innerVector.length then pure (.inr (none, s))
  else do
    let present ← ofOption s.vectors.presenceVector[s.iterPresence]?
    let advanced := { s with iterValues := s.iterValues + 1, iterPresence := s.iterPresence + 1 }
    if present then
      let res ← ofOption s.vectors.innerVector[s.iterValues]?
      pure (.inr (some (tupleCat (BitVec.ofNat 64 s.iterValues + lo, res)), advanced))
    else pure (.inl advanced)

/-- The vectors that the constructor makes, with some default values; their size is the 64-bit `hi - lo + 1`. -/
def freshVectors [Inhabited V] : IndexVectors V :=
  ⟨replicate (hi - lo + 1).toNat default, replicate (hi - lo + 1).toNat false⟩

/-- `ReduceByIndexOperator`. -/
def reduceByIndexVectorsOperator [Inhabited V] (upstream : Iter τ) : Iter ρ where
  State := IndexState upstream.State V
  fresh := ⟨upstream.fresh, freshVectors lo hi, 0, 0⟩
  open_ s := indexOpen lo splitTuple func upstream s >>= fun
    | .ok s => pure s
    | .error _ => fail
  next := iterate (indexNextRound lo tupleCat)
  close s := { s with upstream := upstream.close s.upstream }

/-! ### The index -/

variable {lo hi}

variable {n i : ℕ} {s : IndexVectors V}

/-- **The unsigned check is exact.**  For vectors that end at or below the greatest 64-bit integer, the index of a key
    is inside of them exactly if the key is, and then it is the distance to the lower bound. -/
theorem indexOf_lt_iff (hn : lo.toInt + n ≤ 2 ^ 63) (key : BitVec 64) :
    indexOf lo key < n ↔ lo.toInt ≤ key.toInt ∧ key.toInt < lo.toInt + n := by
  have hkey := BitVec.toInt_eq_toNat_cond key
  have hlo := BitVec.toInt_eq_toNat_cond lo
  rw [indexOf, BitVec.toNat_sub]
  -- the two's complement of each number, by its sign
  split at hkey <;> split at hlo <;> omega

theorem indexOf_eq {key : BitVec 64} (hn : lo.toInt + n ≤ 2 ^ 63) (h : indexOf lo key < n) :
    (indexOf lo key : ℤ) = key.toInt - lo.toInt := by
  have hkey := BitVec.toInt_eq_toNat_cond key
  have hlo := BitVec.toInt_eq_toNat_cond lo
  rw [indexOf, BitVec.toNat_sub] at h ⊢
  split at hkey <;> split at hlo <;> omega

/-! ### The two vectors in step -/

/-- The two vectors as one. -/
def IndexVectors.options : List (Option V) :=
  zipWith (fun value present => if present then some value else none) s.innerVector s.presenceVector

/-- The two vectors have the size `n`. -/
def IndexVectors.InStep (n : ℕ) : Prop := s.innerVector.length = n ∧ s.presenceVector.length = n

theorem IndexVectors.InStep.length_options (h : s.InStep n) : s.options.length = n := by
  rw [options, length_zipWith, h.1, h.2, Nat.min_self]

theorem IndexVectors.InStep.exists_at (h : s.InStep n) (hi : i < n) :
    ∃ value present, s.innerVector[i]? = some value ∧ s.presenceVector[i]? = some present :=
  ⟨_, _, getElem?_eq_getElem (by rw [h.1]; exact hi), getElem?_eq_getElem (by rw [h.2]; exact hi)⟩

theorem IndexVectors.getElem?_options {value : V} {present : Bool}
    (hval : s.innerVector[i]? = some value) (hpres : s.presenceVector[i]? = some present) :
    s.options[i]? = some (if present then some value else none) := by
  rw [options, getElem?_zipWith, hval, hpres]

theorem IndexVectors.options_set (h : s.InStep n) (hi : i < n) (value : V) :
    (IndexVectors.mk (s.innerVector.set i value) (s.presenceVector.set i true)).options =
      s.options.set i (some value) := by
  refine ext_getElem? fun j => ?_
  obtain ⟨hinner, hpresence⟩ := h
  rw [getElem?_set, options, options, getElem?_zipWith, getElem?_zipWith, getElem?_set, getElem?_set]
  by_cases hij : i = j
  · subst hij
    simp [hinner, hpresence, hi]
  · simp [hij]

/-- A tuple with a key inside the bounds is reduced into its entry. -/
theorem reduceInto_of_lt (hs : s.InStep n) (hn : lo.toInt + n ≤ 2 ^ 63) {kv : BitVec 64 × V} (h : indexOf lo kv.1 < n) :
    ∃ s', reduceInto lo func s kv = .ok s' ∧ s'.InStep n ∧
      s'.options = reduceVector lo.toInt func s.options [(kv.1.toInt, kv.2)] := by
  have hidx := indexOf_eq hn h
  have hbounds := (indexOf_lt_iff hn kv.1).mp h
  -- the entry that the code assigns to
  obtain ⟨value, present, hval, hpres⟩ := hs.exists_at h
  have hentry := s.getElem?_options hval hpres
  have hstep : reduceAt lo.toInt func s.options (kv.1.toInt, kv.2) = _ :=
    reduceAt_eq lo.toInt func hbounds.1 (by rw [hs.length_options]; exact hbounds.2)
  have hpos : (kv.1.toInt - lo.toInt).toNat = indexOf lo kv.1 := by omega
  simp only [reduceAt, hpos, hentry, Option.getD_some] at hstep
  rw [if_pos ⟨by omega, by rw [hs.length_options]; exact h⟩] at hstep
  rw [← Option.some.inj hstep]
  have hassign : ∀ value', (if present then s.innerVector[indexOf lo kv.1]?.map (func · kv.2) else some kv.2) = some value' →
      ∃ s', reduceInto lo func s kv = .ok s' ∧ s'.InStep n ∧ s'.options = s.options.set (indexOf lo kv.1) (some value') :=
    fun value' hvalue => ⟨⟨_, _⟩, by simp only [reduceInto, hpres, hvalue, hs.1, h, if_true],
      ⟨by rw [length_set, hs.1], by rw [length_set, hs.2]⟩, s.options_set hs h _⟩
  cases present with
  | true => exact hassign _ (by rw [hval]; rfl)
  | false => exact hassign _ rfl

/-- For any other tuple `at` throws before anything is assigned. -/
theorem reduceInto_of_not_lt (hs : s.InStep n) {kv : BitVec 64 × V} (h : ¬ indexOf lo kv.1 < n) :
    reduceInto lo func s kv = .error s := by
  have hnone : s.presenceVector[indexOf lo kv.1]? = none := getElem?_eq_none (by rw [hs.2]; omega)
  simp only [reduceInto, hnone]

/-- The keys as integers. -/
def intKeys (kvs : List (BitVec 64 × V)) : List (ℤ × V) := kvs.map fun kv => (kv.1.toInt, kv.2)

theorem foldlM_reduceInto (hn : lo.toInt + n ≤ 2 ^ 63) (hs : s.InStep n) {kvs : List (BitVec 64 × V)}
    (h : ∀ kv ∈ kvs, indexOf lo kv.1 < n) :
    ∃ s', kvs.foldlM (reduceInto lo func) s = .ok s' ∧ s'.InStep n ∧
      s'.options = reduceVector lo.toInt func s.options (intKeys kvs) := by
  induction kvs generalizing s with
  | nil =>
    refine ⟨s, rfl, hs, ext_getElem? fun i => ?_⟩
    rw [getElem?_reduceVector]
    simp [intKeys, valuesOf, aggregate]
  | cons kv kvs ih =>
    obtain ⟨s1, hstep, hs1, hopt1⟩ := reduceInto_of_lt func hs hn (h kv mem_cons_self)
    obtain ⟨s', hrest, hs', hopt⟩ := ih hs1 fun e he => h e (mem_cons_of_mem kv he)
    refine ⟨s', ?_, hs', ?_⟩
    · rw [foldlM_cons, hstep]
      exact hrest
    · rw [hopt, hopt1, reduceVector_cons]
      rfl

/-! ### Opening -/

variable {splitTuple} {u : Iter τ} {xs : List τ}

/-- The loop of `open` over the tuples in front of a throw, or over all of them. -/
theorem indexRound_runs {S : Serving u} {s : u.State} {ts rest : List τ} (hbusy : S.Busy s (ts ++ rest))
    {vectors vectors' : IndexVectors V} (h : (ts.map splitTuple).foldlM (reduceInto lo func) vectors = .ok vectors') :
    ∃ s', S.Busy s' rest ∧ ∀ out, Iterates (indexRound lo splitTuple func u) (vectors', s') out →
      Iterates (indexRound lo splitTuple func u) (vectors, s) out := by
  induction ts generalizing s vectors with
  | nil =>
    obtain rfl : vectors = vectors' := Except.ok.inj h
    exact ⟨s, hbusy, fun _ hrest => hrest⟩
  | cons t ts ih =>
    obtain ⟨s1, hnext, hs1⟩ := S.next_cons hbusy
    rw [map_cons, foldlM_cons] at h
    cases hstep : reduceInto lo func vectors (splitTuple t) with
    | error e => simp [hstep, bind, Except.bind] at h
    | ok vectors1 =>
      rw [hstep] at h
      obtain ⟨s', hs', hrest⟩ := ih hs1 h
      refine ⟨s', hs', fun out hout => .step (hnext.bind ?_) (hrest out hout)⟩
      simp only [hstep]
      exact .pure _

/-! ### Iterating -/

/-- The present entries of a vector from the position `i` on, with their keys. -/
def rowsFrom (lo : BitVec 64) (i : ℕ) : List (Option V) → List (BitVec 64 × V)
  | [] => []
  | none :: entries => rowsFrom lo (i + 1) entries
  | some value :: entries => (BitVec.ofNat 64 i + lo, value) :: rowsFrom lo (i + 1) entries

/-- Both iterators are at one position, and the rows from there on are left. -/
def IndexState.Holds {σ : Type} (lo : BitVec 64) (n : ℕ) (s : IndexState σ V) (rows : List (BitVec 64 × V)) : Prop :=
  s.vectors.InStep n ∧ s.iterPresence = s.iterValues ∧ s.iterValues ≤ n ∧
    rows = rowsFrom lo s.iterValues (s.vectors.options.drop s.iterValues)

/-- The loop of `next` runs to the first present entry.  The induction is on the entries that are left. -/
theorem indexNext_runs {σ : Type} {s : IndexState σ V} {rows : List (BitVec 64 × V)} (h : s.Holds lo n rows) :
    ∃ s' : IndexState σ V, Iterates (indexNextRound lo tupleCat) s (rows.head?.map tupleCat, s') ∧
      s'.Holds lo n rows.tail := by
  obtain ⟨d, hd⟩ : ∃ d, n - s.iterValues = d := ⟨_, rfl⟩
  induction d generalizing s rows with
  | zero =>
    obtain ⟨hs, hpos, hle, rfl⟩ := h
    have hend : s.iterValues = n := by omega
    have hnil : rowsFrom lo s.iterValues (s.vectors.options.drop s.iterValues) = [] := by
      rw [drop_of_length_le (by rw [hs.length_options]; omega), rowsFrom]
    refine ⟨s, .done ?_, hs, hpos, hle, by rw [hnil]; rfl⟩
    rw [hnil, indexNextRound, if_pos (by rw [hend, hs.1])]
    exact .pure _
  | succ d ih =>
    obtain ⟨hs, hpos, hle, rfl⟩ := h
    have hlt : s.iterValues < n := by omega
    obtain ⟨value, present, hval, hpres⟩ := hs.exists_at hlt
    have hentry := s.vectors.getElem?_options hval hpres
    have hdrop : s.vectors.options.drop s.iterValues =
        (if present then some value else none) :: s.vectors.options.drop (s.iterValues + 1) := by
      obtain ⟨hbound, hget⟩ := List.getElem?_eq_some_iff.mp hentry
      rw [drop_eq_getElem_cons hbound, hget]
    have hround : s.iterValues ≠ s.vectors.innerVector.length := by
      rw [hs.1]
      omega
    cases present with
    | true =>
      -- a present entry is returned, and both iterators move behind it
      rw [hdrop]
      refine ⟨{ s with iterValues := s.iterValues + 1, iterPresence := s.iterPresence + 1 }, .done ?_, hs,
        congrArg (· + 1) hpos, hlt, rfl⟩
      rw [indexNextRound, if_neg hround, hpos, hpres, hval]
      exact .pure _
    | false =>
      rw [hdrop]
      obtain ⟨s', hit, hs'⟩ := ih
        (s := { s with iterValues := s.iterValues + 1, iterPresence := s.iterPresence + 1 })
        ⟨hs, congrArg (· + 1) hpos, hlt, rfl⟩ (by show n - (s.iterValues + 1) = d; omega)
      refine ⟨s', .step ?_ hit, hs'⟩
      rw [indexNextRound, if_neg hround, hpos, hpres]
      exact .pure _

/-- `next` returns the present entries from the iterators on. -/
def indexServing [Inhabited V] (lo hi : BitVec 64) (splitTuple : τ → BitVec 64 × V) (n : ℕ) :
    Serving (reduceByIndexVectorsOperator lo hi splitTuple func tupleCat u) :=
  .ofNext (fun s ys => ∃ rows, IndexState.Holds lo n s rows ∧ ys = rows.map tupleCat) (by
    rintro s _ ⟨rows, h, rfl⟩
    obtain ⟨s', hit, hs'⟩ := indexNext_runs tupleCat h
    refine ⟨s', ?_, rows.tail, hs', map_tail.symm⟩
    rw [head?_map]
    exact hit.returns)

theorem mem_rowsFrom {entries : List (Option V)} {k : BitVec 64} {v : V} :
    (k, v) ∈ rowsFrom lo i entries ↔ ∃ j : ℕ, k = BitVec.ofNat 64 (i + j) + lo ∧ entries[j]? = some (some v) := by
  induction entries generalizing i with
  | nil => simp [rowsFrom]
  | cons entry entries ih =>
    -- the entry itself, or one behind it
    rw [← Nat.or_exists_add_one]
    simp only [getElem?_cons_zero, getElem?_cons_succ, Nat.add_zero, Option.some.injEq, ← Nat.add_assoc,
      Nat.add_right_comm i _ 1]
    cases entry with
    | none => simp [rowsFrom, ih]
    | some w =>
      rw [rowsFrom, mem_cons, ih, Prod.mk.injEq, Option.some.injEq, eq_comm (a := w)]

theorem toInt_ofNat_add (hn : lo.toInt + n ≤ 2 ^ 63) (hi : i < n) :
    (BitVec.ofNat 64 i + lo).toInt = (i : ℤ) + lo.toInt := by
  have hlo := BitVec.toInt_eq_toNat_cond lo
  have hsum := BitVec.toInt_eq_toNat_cond (BitVec.ofNat 64 i + lo)
  rw [BitVec.toNat_add, BitVec.toNat_ofNat] at hsum
  split at hsum <;> split at hlo <;> omega

/-- The rows come by strictly increasing key. -/
theorem rowsFrom_increasing (hn : lo.toInt + n ≤ 2 ^ 63) {entries : List (Option V)} (hlen : i + entries.length ≤ n) :
    (rowsFrom lo i entries).Pairwise fun a b => a.1.toInt < b.1.toInt := by
  induction entries generalizing i with
  | nil => exact List.Pairwise.nil
  | cons entry entries ih =>
    rw [length_cons] at hlen
    cases entry with
    | none => exact ih (by omega)
    | some value =>
      refine pairwise_cons.mpr ⟨?_, ih (by omega)⟩
      rintro ⟨k, v⟩ hkv
      obtain ⟨j, rfl, hj⟩ := mem_rowsFrom.mp hkv
      have hjlt := (List.getElem?_eq_some_iff.mp hj).1
      show (BitVec.ofNat 64 i + lo).toInt < (BitVec.ofNat 64 (i + 1 + j) + lo).toInt
      rw [toInt_ofNat_add hn (by omega), toInt_ofNat_add hn (by omega)]
      omega

/-! ### The results -/

section Results

variable [Inhabited V] {n : ℕ}

theorem freshVectors_inStep (h : (hi - lo + 1).toNat = n) : (freshVectors lo hi : IndexVectors V).InStep n := by
  subst h
  exact ⟨length_replicate, length_replicate⟩

theorem options_freshVectors (h : (hi - lo + 1).toNat = n) :
    (freshVectors lo hi : IndexVectors V).options = replicate n none := by
  subst h
  rw [IndexVectors.options, freshVectors, zipWith_replicate, Nat.min_self]
  rfl

end Results

theorem valuesOf_intKeys (k : BitVec 64) (kvs : List (BitVec 64 × V)) :
    valuesOf k.toInt (intKeys kvs) = valuesOf k kvs := by
  have hkey : ∀ kv : BitVec 64 × V, (kv.1.toInt == k.toInt) = (kv.1 == k) := by
    intro kv
    rw [Bool.eq_iff_iff, beq_iff_eq, beq_iff_eq, BitVec.toInt_inj]
  simp only [valuesOf, intKeys, filter_map, map_map, Function.comp_def, hkey]

/-- The rows of the vectors are the entries of the hash table. -/
theorem rowsFrom_perm_reduceTable (hn : lo.toInt + n ≤ 2 ^ 63) {kvs : List (BitVec 64 × V)}
    (h : ∀ kv ∈ kvs, indexOf lo kv.1 < n) :
    (rowsFrom lo 0 (reduceVector lo.toInt func (replicate n none) (intKeys kvs))).Perm (reduceTable func [] kvs) := by
  have hincreasing : (rowsFrom lo 0 (reduceVector lo.toInt func (replicate n none) (intKeys kvs))).Pairwise _ :=
    rowsFrom_increasing hn (by rw [length_reduceVector, length_replicate]; omega)
  have hnd : (rowsFrom lo 0 (reduceVector lo.toInt func (replicate n none) (intKeys kvs))).Nodup :=
    hincreasing.imp fun hlt heq => (heq ▸ hlt).ne rfl
  have hdiffer : KeysDiffer (reduceTable func [] kvs) := KeysDiffer.reduceTable func .nil kvs
  have htable : (reduceTable func [] kvs).Nodup :=
    hdiffer.imp fun hne heq => by simp [heq] at hne
  refine (perm_ext_iff_of_nodup hnd htable).mpr ?_
  rintro ⟨k, v⟩
  have hlook : (k, v) ∈ reduceTable func [] kvs ↔ aggregate func none (valuesOf k kvs) = some v := by
    have hfold := lookup_reduceTable func [] kvs k
    rw [lookup_nil] at hfold
    rw [← hfold]
    refine ⟨fun hmem => hdiffer.lookup_of_mem hmem BEq.rfl, fun hsome => ?_⟩
    obtain ⟨e, hmem, hkey, rfl⟩ := exists_of_lookup hsome
    rwa [LawfulBEq.eq_of_beq hkey]
  rw [hlook, mem_rowsFrom]
  constructor
  · rintro ⟨j, rfl, hj⟩
    have hlt : j < n := by
      have := (List.getElem?_eq_some_iff.mp hj).1
      rwa [length_reduceVector, length_replicate] at this
    rw [getElem?_reduceVector_replicate lo.toInt func n _ hlt, Option.some.injEq,
      ← toInt_ofNat_add hn hlt, valuesOf_intKeys] at hj
    rwa [Nat.zero_add]
  · intro hv
    -- a key with a value occurs in the input, so it is within the bounds
    have hmem : ∃ kv ∈ kvs, kv.1 = k := by
      by_contra hnone
      have hnil : valuesOf k kvs = [] := by
        refine map_eq_nil_iff.mpr (filter_eq_nil_iff.mpr fun kv hkv heq => hnone ⟨kv, hkv, ?_⟩)
        exact beq_iff_eq.mp heq
      rw [hnil] at hv
      simp [aggregate] at hv
    obtain ⟨kv, hkv, rfl⟩ := hmem
    have hlt := h kv hkv
    have hkey : kv.1 = BitVec.ofNat 64 (indexOf lo kv.1) + lo := by
      apply BitVec.toInt_inj.mp
      rw [toInt_ofNat_add hn hlt, indexOf_eq hn hlt]
      omega
    refine ⟨indexOf lo kv.1, by rw [Nat.zero_add]; exact hkey, ?_⟩
    rw [getElem?_reduceVector_replicate lo.toInt func n _ hlt, ← toInt_ofNat_add hn hlt, ← hkey, valuesOf_intKeys, hv]

/-- The key is inside the bounds of the operator. -/
def Within (lo hi key : BitVec 64) : Prop := lo.toInt ≤ key.toInt ∧ key.toInt ≤ hi.toInt

instance (lo hi key : BitVec 64) : Decidable (Within lo hi key) := by
  unfold Within
  infer_instance

/-- The size of the vectors, if it is a 64-bit integer. -/
theorem size_eq (hle : lo.toInt ≤ hi.toInt) (hsize : hi.toInt - lo.toInt + 1 < 2 ^ 63) :
    ((hi - lo + 1).toNat : ℤ) = hi.toInt - lo.toInt + 1 := by
  have hlo := BitVec.toInt_eq_toNat_cond lo
  have hhi := BitVec.toInt_eq_toNat_cond hi
  show (((2 ^ 64 - lo.toNat + hi.toNat) % 2 ^ 64 + 1) % 2 ^ 64 : ℕ) = hi.toInt - lo.toInt + 1
  split at hlo <;> split at hhi <;> omega

/-- **Reduce-by-index is reduce-by-key, sorted.**  For keys within the bounds the operator returns the tuples of
    `ReduceByKeyOperator`, with whatever iteration order of the hash table, by strictly increasing key.  Otherwise
    `open` throws at the first tuple with another key, with the vectors as the tuples in front of it left them. -/
theorem reduceByIndex_refines_reduceByKey [Inhabited V] (hle : lo.toInt ≤ hi.toInt)
    (hsize : hi.toInt - lo.toInt + 1 < 2 ^ 63) (splitTuple : τ → BitVec 64 × V) (func : V → V → V)
    (tupleCat : BitVec 64 × V → ρ) (R : Replay u xs) :
    ((∀ x ∈ xs, Within lo hi (splitTuple x).1) →
      ∃ rows : List (BitVec 64 × V), (rows.Pairwise fun a b => a.1.toInt < b.1.toInt) ∧
        Returns (reduceByIndexVectorsOperator lo hi splitTuple func tupleCat u).firstDrain (rows.map tupleCat) ∧
        ∀ o : IterationOrder (BitVec 64), ∃ rows' : List (BitVec 64 × V), rows.Perm rows' ∧
          Returns (reduceByKeyOperator o splitTuple func tupleCat u).firstDrain (rows'.map tupleCat)) ∧
    ((∃ x ∈ xs, ¬ Within lo hi (splitTuple x).1) →
      ∃ before x after, xs = before ++ x :: after ∧ (∀ y ∈ before, Within lo hi (splitTuple y).1) ∧
        ¬ Within lo hi (splitTuple x).1 ∧ ∃ vectors : IndexVectors V,
          (before.map splitTuple).foldlM (reduceInto lo func) (freshVectors lo hi) = .ok vectors ∧
          Returns (indexOpen lo splitTuple func u ⟨u.fresh, freshVectors lo hi, 0, 0⟩) (.error vectors)) := by
  obtain ⟨n, hn⟩ : ∃ n, (hi - lo + 1).toNat = n := ⟨_, rfl⟩
  have hnInt : (n : ℤ) = hi.toInt - lo.toInt + 1 := by
    rw [← hn]
    exact size_eq hle hsize
  have hhi : hi.toInt < 2 ^ 63 := BitVec.toInt_lt
  have hbound : lo.toInt + n ≤ 2 ^ 63 := by omega
  have hwithin : ∀ key, Within lo hi key ↔ indexOf lo key < n := by
    intro key
    rw [indexOf_lt_iff hbound, Within]
    omega
  have hfresh : (freshVectors lo hi : IndexVectors V).InStep n := freshVectors_inStep hn
  have hkeys : ∀ {ys : List τ}, (∀ y ∈ ys, Within lo hi (splitTuple y).1) →
      ∀ kv ∈ ys.map splitTuple, indexOf lo kv.1 < n := by
    intro ys hys
    rw [forall_mem_map]
    exact fun y hy => (hwithin _).mp (hys y hy)
  obtain ⟨s₁, hopen, hs₁⟩ := R.opens R.fresh
  constructor
  · intro hall
    have hkvs := hkeys hall
    obtain ⟨vectors, hfold, hstep, hopt⟩ := foldlM_reduceInto func hbound hfresh hkvs
    rw [options_freshVectors hn] at hopt
    have hperm := rowsFrom_perm_reduceTable func hbound hkvs
    rw [← hopt] at hperm
    refine ⟨rowsFrom lo 0 vectors.options, rowsFrom_increasing hbound (by rw [hstep.length_options]; omega), ?_, ?_⟩
    · have hbusy : R.Busy s₁ (xs ++ []) := by rwa [append_nil]
      obtain ⟨s₂, hs₂, hround⟩ := indexRound_runs func hbusy hfold
      obtain ⟨s₂, hnext, -⟩ := R.next_nil hs₂
      have hopens : Returns ((reduceByIndexVectorsOperator lo hi splitTuple func tupleCat u).open_
          ⟨u.fresh, freshVectors lo hi, 0, 0⟩) ⟨s₂, vectors, 0, 0⟩ :=
        (hopen.bind (hround _ (.done (hnext.bind (.pure _)))).returns).bind (.pure _)
      obtain ⟨s₃, hdrain', -⟩ := (indexServing func tupleCat lo hi splitTuple n).drains
        (s := (⟨s₂, vectors, 0, 0⟩ : IndexState u.State V))
        ⟨rowsFrom lo 0 vectors.options, ⟨hstep, rfl, Nat.zero_le n, rfl⟩, rfl⟩
      exact hdrain'.firstDrain hopens
    · intro o
      refine ⟨entries o (reduceTable func [] (xs.map splitTuple)), ?_, reduceByKey_firstDrain o splitTuple func tupleCat R⟩
      exact hperm.trans (entries_perm o _).symm
  · rintro hsome
    -- the first tuple that is out of bounds
    obtain ⟨before, x, after, hxs, hbefore, hx⟩ : ∃ before x after, xs = before ++ x :: after ∧
        (∀ y ∈ before, Within lo hi (splitTuple y).1) ∧ ¬ Within lo hi (splitTuple x).1 := by
      obtain ⟨x, hx, hnot⟩ := hsome
      have hfind : (xs.find? fun y => ¬ Within lo hi (splitTuple y).1).isSome :=
        find?_isSome.mpr ⟨x, hx, by simpa using hnot⟩
      obtain ⟨y, hy⟩ := Option.isSome_iff_exists.mp hfind
      obtain ⟨hpy, before, after, hsplit, hb⟩ := find?_eq_some_iff_append.mp hy
      exact ⟨before, y, after, hsplit, fun z hz => by simpa using hb z hz, by simpa using hpy⟩
    obtain ⟨vectors, hfold, hstep, -⟩ := foldlM_reduceInto func hbound hfresh (hkeys hbefore)
    have hthrow : reduceInto lo func vectors (splitTuple x) = .error vectors :=
      reduceInto_of_not_lt func hstep fun hlt => hx ((hwithin _).mpr hlt)
    subst hxs
    obtain ⟨s₂, hs₂, hround⟩ := indexRound_runs func hs₁ hfold
    obtain ⟨s₃, hnext, -⟩ := R.next_cons hs₂
    refine ⟨before, x, after, rfl, hbefore, hx, vectors, hfold, hopen.bind (hround _ (.done (hnext.bind ?_))).returns⟩
    simp only [hthrow]
    exact .pure _

/-- Two keys of three, and a key whose difference to the lower bound overflows. -/
theorem reduceByIndex_refines_reduceByKey_oneToThree :
    (∃ rows : List (BitVec 64 × ℕ), (rows.Pairwise fun a b => a.1.toInt < b.1.toInt) ∧
      Returns (reduceByIndexVectorsOperator 1 3 id (· - ·) id (Iter.ofList [(3, 9), (1, 5), (3, 2)])).firstDrain
        (rows.map id) ∧
      ∀ o : IterationOrder (BitVec 64), ∃ rows' : List (BitVec 64 × ℕ), rows.Perm rows' ∧
        Returns (reduceByKeyOperator o id (· - ·) id (Iter.ofList [(3, 9), (1, 5), (3, 2)])).firstDrain
          (rows'.map id)) ∧
    ∃ before x after, [(3, 9), (BitVec.intMin 64, 5)] = before ++ x :: after ∧
      (∀ y ∈ before, Within 1 3 (id y).1) ∧ ¬ Within 1 3 (id x).1 ∧ ∃ vectors : IndexVectors ℕ,
        (before.map id).foldlM (reduceInto 1 (· - ·)) (freshVectors 1 3) = .ok vectors ∧
        Returns (indexOpen 1 id (· - ·) (Iter.ofList [(3, 9), (BitVec.intMin 64, 5)])
          ⟨(Iter.ofList [(3, 9), (BitVec.intMin 64, 5)]).fresh, freshVectors 1 3, 0, 0⟩) (.error vectors) := by
  have hle : (1 : BitVec 64).toInt ≤ (3 : BitVec 64).toInt := by decide
  have hsize : (3 : BitVec 64).toInt - (1 : BitVec 64).toInt + 1 < 2 ^ 63 := by decide
  constructor
  · exact (reduceByIndex_refines_reduceByKey hle hsize id (· - ·) id (Replay.ofList _)).1 (by decide)
  · exact (reduceByIndex_refines_reduceByKey hle hsize id (· - ·) (id : BitVec 64 × ℕ → BitVec 64 × ℕ)
      (Replay.ofList _)).2 (by decide)

end ReduceByIndex

end Jitq.Operators

import Jitq.Operators.Pipelined
import Jitq.Lib.HashTable

namespace Jitq.Operators

open Fuel Pull HashTable List

/-! # Blocking operators — Sort, TopK, the reductions, GroupBy, Partition

The generated operators that read their whole input before the first result.  What matters for a
second `open` is the container that `open` fills: `Sort`, `TopK`, `ReduceByKey` and `ReduceByIndex`
add to the one that the previous run left behind (`materializeOperator`), `GroupBy` keeps it *and*
its position in it, and `Reduce`, `ReduceByKeyGrouped` and `Partition` start over. -/

variable {τ ρ β : Type}

/-! ### Containers that survive a close -/

/-- The members of an operator that fills a container in `open` and hands it out in `next`; `result`
    is the part between `result_it_` and the container's end. -/
structure MaterializeState (σ β ρ : Type) where
  upstream : σ
  container : β
  result : List ρ

/-- `open` runs `build` on the container of the previous run (an empty one at first) and sets the
    result iterator to its beginning; the container is never cleared. -/
def materializeOperator (empty : β) (upstream : Iter τ)
    (build : β → upstream.State → Comp (β × upstream.State)) (elements : β → List ρ) : Iter ρ where
  State := MaterializeState upstream.State β ρ
  fresh := ⟨upstream.fresh, empty, []⟩
  open_ s := do
    let u ← upstream.open_ s.upstream
    let (container, u) ← build s.container u
    pure ⟨u, container, elements container⟩
  next s := match s.result with
    | [] => pure (none, s)
    | r :: rest => pure (some r, { s with result := rest })
  close s := { s with upstream := upstream.close s.upstream }

section Materialize

variable {u : Iter τ} {xs : List τ} {empty : β}
  {build : β → u.State → Comp (β × u.State)} {elements : β → List ρ} {c₁ c₂ : β}

variable (R : Replay u xs)

/-- On an upstream that has `xs` to return, `build` turns the container `c` into `c'`. -/
def Builds (build : β → u.State → Comp (β × u.State)) (c c' : β) : Prop :=
  ∀ s, R.Busy s xs → ∃ s' ys, Returns (build c s) (c', s') ∧ R.Busy s' ys

theorem builds_foldAll {f : β → τ → Option β} {c c' : β}
    (h : xs.foldlM f c = some c') : Builds R (u.foldAll f) c c' := by
  intro s hs
  obtain ⟨s', hdrain, hs'⟩ := R.drains hs
  exact ⟨s', [], hdrain.foldAll h, hs'⟩

/-- An open materializing operator: its container and what is left of it. -/
def MaterializeState.Holds (c : β) (s : MaterializeState u.State β ρ) (ys : List ρ) : Prop :=
  (∃ us, R.Busy s.upstream us) ∧ s.container = c ∧ s.result = ys

theorem materialize_open (empty : β) (elements : β → List ρ) (R : Replay u xs) {s : MaterializeState u.State β ρ} {c' : β}
    (hidle : R.Idle s.upstream) (hbuild : Builds R build s.container c') :
    ∃ s', Returns ((materializeOperator empty u build elements).open_ s) s' ∧ s'.Holds R c' (elements c') := by
  obtain ⟨u1, hopen, hu1⟩ := R.opens hidle
  obtain ⟨u2, us, hret, hu2⟩ := hbuild u1 hu1
  exact ⟨_, hopen.bind (hret.bind (.pure _)), ⟨us, hu2⟩, rfl, rfl⟩

/-- `next` hands out the elements between the iterator and the container's end. -/
def materializeServing (empty : β) (build : β → u.State → Comp (β × u.State))
    (elements : β → List ρ) (R : Replay u xs) (c : β) :
    Serving (materializeOperator empty u build elements) where
  Busy s ys := s.Holds R c ys
  next_nil := by
    rintro s ⟨hup, hc, hr⟩
    refine ⟨s, ?_, hup, hc, hr⟩
    simpa only [materializeOperator, hr] using Returns.pure _
  next_cons := by
    rintro s y ys ⟨hup, hc, hr⟩
    refine ⟨{ s with result := ys }, ?_, hup, hc, rfl⟩
    simpa only [materializeOperator, hr] using Returns.pure _

theorem materialize_firstDrain (h1 : Builds R build empty c₁) :
    Returns (materializeOperator empty u build elements).firstDrain (elements c₁) := by
  obtain ⟨s1, hopen, hs1⟩ := materialize_open empty elements
    (s := ⟨u.fresh, empty, []⟩) R R.fresh h1
  obtain ⟨s2, hdrain, -⟩ := (materializeServing empty build elements R c₁).drains hs1
  exact hdrain.firstDrain hopen

/-- Opening a materializing operator a second time: its container was filled twice. -/
theorem materialize_reopen (elements : β → List ρ) (R : Replay u xs) (h1 : Builds R build empty c₁)
    (h2 : Builds R build c₁ c₂) :
    let p := materializeOperator empty u build elements
    ∃ s1 s2, Returns (p.open_ p.fresh) s1 ∧ Returns (p.open_ (p.close s1)) s2 ∧ s2.Holds R c₂ (elements c₂) := by
  obtain ⟨s1, hopen1, ⟨us, hus⟩, hc, -⟩ := materialize_open empty elements
    (s := ⟨u.fresh, empty, []⟩) R R.fresh h1
  obtain ⟨s2, hopen2, hs2⟩ := materialize_open empty elements
    (s := { s1 with upstream := u.close s1.upstream }) R (R.close hus) (hc ▸ h2)
  exact ⟨s1, s2, hopen1, hopen2, hs2⟩

/-- After a re-open a materializing operator returns the elements of a container that was filled
    twice. -/
theorem materialize_reopenDrain (h1 : Builds R build empty c₁) (h2 : Builds R build c₁ c₂) :
    Returns ((materializeOperator empty u build elements).reopenDrain 0) (elements c₂) := by
  obtain ⟨s1, s2, hopen, hreopen, hs2⟩ := materialize_reopen elements R h1 h2
  obtain ⟨s3, hdrain, -⟩ := (materializeServing empty build elements R c₂).drains hs2
  exact hdrain.reopenDrain hopen (.pure s1) hreopen

/-- If the second filling changes nothing, the operator replays the elements of its container. -/
def materializeReplay (h₁ : Builds R build empty c₁) (h₂ : Builds R build c₁ c₁) :
    Replay (materializeOperator empty u build elements) (elements c₁) where
  toServing := materializeServing empty build elements R c₁
  Idle s := R.Idle s.upstream ∧ (s.container = empty ∨ s.container = c₁)
  fresh := ⟨R.fresh, .inl rfl⟩
  opens := by
    rintro s ⟨hidle, hc⟩
    refine materialize_open empty elements R hidle ?_
    rcases hc with hc | hc <;> rw [hc] <;> assumption
  close := by
    rintro s ys ⟨⟨us, hus⟩, hc, -⟩
    exact ⟨R.close hus, .inr hc⟩

end Materialize

/-! ### Sort -/

/-- `std::sort` with the comparator on the field `v0`: some sorted rearrangement of the container;
    the order of tuples with equal keys is up to the library. -/
structure StdSort {κ : Type} [LT κ] (v0 : τ → κ) where
  sort : List τ → List τ
  perm : ∀ xs, (sort xs).Perm xs
  sorted : ∀ xs, (sort xs).Pairwise fun x y => ¬ v0 y < v0 x

section Sorting

variable {κ : Type} [LT κ] {v0 : τ → κ} (std : StdSort v0) {u : Iter τ} {xs : List τ}

/-- The loop of `SortOperator::open` and the `std::sort` behind it. -/
def sortBuild (upstream : Iter τ) (container : List τ) (s : upstream.State) : Comp (List τ × upstream.State) := do
  let (container, s) ← upstream.foldAll (fun c ret => some (c ++ [ret])) container s
  pure (std.sort container, s)

/-- `SortOperator`. -/
def sortOperator (upstream : Iter τ) : Iter τ := materializeOperator [] upstream (sortBuild std upstream) id

theorem sort_builds (R : Replay u xs) (c : List τ) : Builds R (sortBuild std u) c (std.sort (c ++ xs)) := by
  intro s hs
  obtain ⟨s', hdrain, hs'⟩ := R.drains hs
  refine ⟨s', [], (hdrain.foldAll_some (fun c ret => c ++ [ret]) c).bind ?_, hs'⟩
  rw [Pull.foldl_concat]
  exact .pure _

theorem StdSort.sort_nil : std.sort [] = [] := (std.perm []).eq_nil

theorem sort_firstDrain (R : Replay u xs) : Returns (sortOperator std u).firstDrain (std.sort xs) :=
  materialize_firstDrain R (sort_builds std R [])

/-- A sort of an empty input replays. -/
def sortReplay (R : Replay u []) : Replay (sortOperator std u) (std.sort []) := by
  have hbuild := sort_builds std R []
  rw [append_nil, std.sort_nil] at hbuild
  rw [std.sort_nil]
  exact materializeReplay R hbuild hbuild

/-- The container of a sort grows with every open, so only the sort of an empty input replays. -/
theorem sort_input_eq_nil (R : Replay u xs) (h : Reopens (sortOperator std u) (std.sort xs)) : xs = [] := by
  have hagain : Returns ((sortOperator std u).reopenDrain 0) (std.sort (std.sort xs ++ xs)) :=
    materialize_reopenDrain R (sort_builds std R []) (sort_builds std R (std.sort xs))
  have heq := hagain.unique (h.again 0)
  have hlen := congrArg List.length heq
  simp only [(std.perm _).length_eq, length_append] at hlen
  exact length_eq_zero_iff.mp (by omega)

end Sorting

/-! ### TopK -/

section TopK

variable {κ : Type} [LT κ] [DecidableLT κ] (v0 : τ → κ)

/-- `std::multiset::insert` under the comparator `x.v0 > y.v0`: behind the elements that are not
    smaller. -/
def multisetInsert (t : τ) : List τ → List τ
  | [] => [t]
  | y :: ys => if v0 y < v0 t then t :: y :: ys else y :: multisetInsert t ys

/-- The first loop of `TopKOperator::open`: `k` calls of `next`, also past the end of the input. -/
def topKFill (upstream : Iter τ) : ℕ → List τ → upstream.State → Comp (List τ × upstream.State)
  | 0, c, s => pure (c, s)
  | k + 1, c, s => upstream.next s >>= fun
    | (none, s) => topKFill upstream k c s
    | (some t, s) => topKFill upstream k (multisetInsert v0 t c) s

/-- The body of the second loop: a larger tuple takes the place of the smallest one. -/
def topKReplace (c : List τ × τ) (t : τ) : List τ × τ :=
  if v0 t > v0 c.2 then
    let container := multisetInsert v0 t c.1.dropLast
    (container, container.getLast?.getD c.2)
  else c

def topKBuild (numElements : ℤ) (upstream : Iter τ) (container : List τ) (s : upstream.State) :
    Comp (List τ × upstream.State) := do
  let (container, s) ← topKFill v0 upstream numElements.toNat container s
  match container.getLast? with
  | none => pure (container, s)
  | some smallest => do
    let (c, s) ← upstream.foldAll (fun c t => some (topKReplace v0 c t)) (container, smallest) s
    pure (c.1, s)

/-- `TopKOperator`. -/
def topKOperator (numElements : ℤ) (upstream : Iter τ) : Iter τ :=
  materializeOperator [] upstream (topKBuild v0 numElements upstream) id

/-- The container after one `open`, on a container `c` and an input `xs`. -/
def topKContainer (k : ℕ) (c xs : List τ) : List τ :=
  let filled := (xs.take k).foldl (fun c t => multisetInsert v0 t c) c
  match filled.getLast? with
  | none => filled
  | some smallest => ((xs.drop k).foldl (topKReplace v0) (filled, smallest)).1

theorem length_multisetInsert (t : τ) (ys : List τ) : (multisetInsert v0 t ys).length = ys.length + 1 := by
  induction ys with
  | nil => rfl
  | cons y ys ih =>
    rw [multisetInsert]
    split
    · rfl
    · simp [ih]

theorem length_foldl_multisetInsert (xs c : List τ) :
    (xs.foldl (fun c t => multisetInsert v0 t c) c).length = c.length + xs.length := by
  induction xs generalizing c with
  | nil => rfl
  | cons x xs ih => simp [ih, length_multisetInsert]; omega

theorem length_foldl_topKReplace (xs : List τ) (c : List τ × τ) (hc : c.1 ≠ []) :
    (xs.foldl (topKReplace v0) c).1.length = c.1.length := by
  induction xs generalizing c with
  | nil => rfl
  | cons x xs ih =>
    have hpos := length_pos_of_ne_nil hc
    have hlen : (topKReplace v0 c x).1.length = c.1.length := by
      rw [topKReplace]
      split
      · simp only [length_multisetInsert, length_dropLast]
        omega
      · rfl
    rw [foldl_cons, ih _ (ne_nil_of_length_pos (by omega)), hlen]

theorem length_topKContainer (k : ℕ) (c xs : List τ) :
    (topKContainer v0 k c xs).length = c.length + min k xs.length := by
  have hfill := length_foldl_multisetInsert v0 (xs.take k) c
  rw [length_take] at hfill
  simp only [topKContainer]
  generalize (xs.take k).foldl (fun c t => multisetInsert v0 t c) c = filled at hfill ⊢
  cases hlast : filled.getLast? with
  | none => exact hfill
  | some smallest =>
    have hne : filled ≠ [] := by
      rintro rfl
      simp at hlast
    exact (length_foldl_topKReplace v0 _ (filled, smallest) hne).trans hfill

variable {u : Iter τ} {xs : List τ}

theorem topK_fills (R : Replay u xs) (k : ℕ) (c : List τ) {s : u.State} {ys : List τ} (hs : R.Busy s ys) :
    ∃ s', Returns (topKFill v0 u k c s)
        ((ys.take k).foldl (fun c t => multisetInsert v0 t c) c, s') ∧ R.Busy s' (ys.drop k) := by
  induction k generalizing c s ys with
  | zero => exact ⟨s, .pure _, by simpa using hs⟩
  | succ k ih =>
    cases ys with
    | nil =>
      obtain ⟨s1, hnext, hs1⟩ := R.next_nil hs
      obtain ⟨s', hfill, hs'⟩ := ih c hs1
      simp only [take_nil, drop_nil] at hfill hs'
      exact ⟨s', hnext.bind hfill, hs'⟩
    | cons y ys =>
      obtain ⟨s1, hnext, hs1⟩ := R.next_cons hs
      obtain ⟨s', hfill, hs'⟩ := ih (multisetInsert v0 y c) hs1
      exact ⟨s', hnext.bind hfill, hs'⟩

theorem topK_builds (R : Replay u xs) (k : ℤ) (c : List τ) :
    Builds R (topKBuild v0 k u) c (topKContainer v0 k.toNat c xs) := by
  intro s hs
  obtain ⟨s1, hfill, hs1⟩ := topK_fills v0 R k.toNat c hs
  simp only [topKContainer]
  generalize (xs.take k.toNat).foldl (fun c t => multisetInsert v0 t c) c = filled at hfill ⊢
  cases hlast : filled.getLast? with
  | none =>
    refine ⟨s1, _, hfill.bind ?_, hs1⟩
    simpa only [hlast] using Returns.pure _
  | some smallest =>
    obtain ⟨s2, hdrain, hs2⟩ := R.drains hs1
    refine ⟨s2, [], hfill.bind ?_, hs2⟩
    simp only [hlast]
    exact (hdrain.foldAll_some (topKReplace v0) (filled, smallest)).bind (.pure _)

/-- A top-k that keeps no tuple at all replays. -/
def topKReplay (R : Replay u xs) (k : ℤ) (h : k ≤ 0 ∨ xs = []) :
    Replay (topKOperator v0 k u) (topKContainer v0 k.toNat [] xs) := by
  have hnil : topKContainer v0 k.toNat [] xs = [] := by
    refine length_eq_zero_iff.mp ?_
    rw [length_topKContainer]
    rcases h with hk | rfl <;> simp [*]
  have hbuild := topK_builds v0 R k []
  rw [hnil] at hbuild ⊢
  exact materializeReplay R hbuild hbuild

theorem topK_firstDrain (R : Replay u xs) (k : ℤ) :
    Returns (topKOperator v0 k u).firstDrain (topKContainer v0 k.toNat [] xs) :=
  materialize_firstDrain R (topK_builds v0 R k [])

/-- The multiset of a top-k grows with every open, so it replays only if it stays empty. -/
theorem topK_keeps_nothing (R : Replay u xs) (k : ℤ)
    (h : Reopens (topKOperator v0 k u) (topKContainer v0 k.toNat [] xs)) : k ≤ 0 ∨ xs = [] := by
  have hagain : Returns ((topKOperator v0 k u).reopenDrain 0)
      (topKContainer v0 k.toNat (topKContainer v0 k.toNat [] xs) xs) :=
    materialize_reopenDrain R (topK_builds v0 R k []) (topK_builds v0 R k _)
  have hlen := congrArg List.length (hagain.unique (h.again 0))
  simp only [length_topKContainer, length_nil] at hlen
  rcases Nat.eq_zero_or_pos xs.length with hxs | hxs
  · exact .inr (length_eq_zero_iff.mp hxs)
  · exact .inl (by omega)

end TopK

/-! ### ReduceByKey and ReduceByIndex -/

section ReduceByKey

section

variable {K V : Type} [BEq K] (iteration : List (K × V) → List (K × V)) (splitTuple : τ → K × V)
  (func : V → V → V) (tupleCat : K × V → ρ)

/-- `ReduceByKeyOperator`: `open` reduces its input into the hash table, `next` iterates it. -/
def reduceByKeyTable (upstream : Iter τ) : Iter ρ :=
  materializeOperator [] upstream
    (upstream.foldAll fun hashTable ret => some (emplace func hashTable (splitTuple ret)))
    fun hashTable => (iteration hashTable).map tupleCat

variable {u : Iter τ} {xs : List τ}

theorem reduceByKey_builds (R : Replay u xs) (c : List (K × V)) :
    Builds R (u.foldAll fun hashTable ret => some (emplace func hashTable (splitTuple ret))) c
      (reduceTable func c (xs.map splitTuple)) := by
  refine builds_foldAll R ?_
  rw [foldlM_some (fun hashTable ret => emplace func hashTable (splitTuple ret)), reduceTable, foldl_map]

theorem reduceByKeyTable_firstDrain (R : Replay u xs) :
    Returns (reduceByKeyTable iteration splitTuple func tupleCat u).firstDrain
      ((iteration (reduceTable func [] (xs.map splitTuple))).map tupleCat) :=
  materialize_firstDrain R (reduceByKey_builds splitTuple func R [])

end

variable {K V : Type} [BEq K] (o : IterationOrder K) (splitTuple : τ → K × V)
  (func : V → V → V) (tupleCat : K × V → ρ)

/-- `ReduceByKeyOperator` with an iteration order that depends on the keys only. -/
def reduceByKeyOperator (upstream : Iter τ) : Iter ρ :=
  reduceByKeyTable (entries o) splitTuple func tupleCat upstream

/-- What a reduction by key returns: one tuple per key, in the order of the hash table. -/
def reduceByKeyRows (xs : List τ) : List ρ :=
  (entries o (reduceTable func [] (xs.map splitTuple))).map tupleCat

/-- The keys are equal to themselves, and folding the values of a key into their aggregate once more
    changes nothing. -/
def ReducesAgain (xs : List τ) : Prop :=
  (∀ kv ∈ xs.map splitTuple, kv.1 == kv.1) ∧ ∀ k, Refolds func (valuesOf k (xs.map splitTuple))

variable {u : Iter τ} {xs : List τ}

theorem reduceByKey_firstDrain (R : Replay u xs) :
    Returns (reduceByKeyOperator o splitTuple func tupleCat u).firstDrain
      (reduceByKeyRows o splitTuple func tupleCat xs) :=
  reduceByKeyTable_firstDrain (entries o) splitTuple func tupleCat R

variable [PartialEquivBEq K]

/-- A reduction by key whose aggregates do not change when its input is folded into them once more
    replays. -/
def reduceByKeyReplay (R : Replay u xs) (h : ReducesAgain splitTuple func xs) :
    Replay (reduceByKeyOperator o splitTuple func tupleCat u)
      (reduceByKeyRows o splitTuple func tupleCat xs) :=
  show Replay (materializeOperator [] u _ fun hashTable => (entries o hashTable).map tupleCat) _ from
  materializeReplay R (reduceByKey_builds splitTuple func R []) (by
    have hbuild := reduceByKey_builds splitTuple func R (reduceTable func [] (xs.map splitTuple))
    rwa [reduceTable_eq_self func h.1 h.2] at hbuild)

variable {tupleCat}

/-- A reduction by key that replays has aggregates that survive a second fold. -/
theorem reduceByKey_reducesAgain (hcat : Function.Injective tupleCat) (R : Replay u xs)
    (h : Reopens (reduceByKeyOperator o splitTuple func tupleCat u)
      (reduceByKeyRows o splitTuple func tupleCat xs)) : ReducesAgain splitTuple func xs := by
  have hagain : Returns ((reduceByKeyOperator o splitTuple func tupleCat u).reopenDrain 0)
      ((entries o (reduceTable func (reduceTable func [] (xs.map splitTuple))
        (xs.map splitTuple))).map tupleCat) :=
    materialize_reopenDrain R (reduceByKey_builds splitTuple func R [])
      (reduceByKey_builds splitTuple func R _)
  have heq := hagain.unique (h.again 0)
  exact refolds_of_entries_eq func o (map_injective_iff.mpr hcat heq)

end ReduceByKey

section ReduceByIndex

variable {V : Type} (lo hi : ℤ) (splitTuple : τ → ℤ × V) (func : V → V → V) (tupleCat : ℤ × V → ρ)

variable (vector : List (Option V))

/-- The loop body of `ReduceByIndexOperator::open` on its two vectors, the values and their presence
    bits; `at` throws for an index outside of them. -/
def reduceAt (kv : ℤ × V) : Option (List (Option V)) :=
  let key := kv.1 - lo
  if 0 ≤ key ∧ key.toNat < vector.length then
    some (vector.set key.toNat (aggregate func (vector[key.toNat]?.getD none) [kv.2]))
  else none

/-- The elements of the vectors with their keys, absent ones included. -/
def indexedEntries : List (Option (ℤ × V)) :=
  vector.zipIdx.map fun (value, i) => value.map fun v => ((i : ℤ) + lo, v)

/-- `ReduceByIndexOperator`: `next` skips the elements that are not present. -/
def reduceByIndexOperator (upstream : Iter τ) : Iter ρ :=
  searchOperator (fun entry => entry.map tupleCat)
    (materializeOperator (replicate (hi - lo + 1).toNat none) upstream
      (upstream.foldAll fun vector ret => reduceAt lo func vector (splitTuple ret))
      (indexedEntries lo))

variable (kvs : List (ℤ × V))

/-- The vectors after the inputs `kvs`: at each index the fold of that key's values. -/
def reduceVector : List (Option V) :=
  vector.zipIdx.map fun (value, i) => aggregate func value (valuesOf ((i : ℤ) + lo) kvs)

/-- What a reduction by index returns: one tuple per key that occurs, in key order. -/
def reduceByIndexRows (xs : List τ) : List ρ :=
  (indexedEntries lo (reduceVector lo func (replicate (hi - lo + 1).toNat none)
    (xs.map splitTuple))).filterMap fun entry => entry.map tupleCat

theorem length_reduceVector :
    (reduceVector lo func vector kvs).length = vector.length := by
  simp [reduceVector]

theorem getElem?_reduceVector (i : ℕ) :
    (reduceVector lo func vector kvs)[i]? =
      vector[i]?.map fun value => aggregate func value (valuesOf ((i : ℤ) + lo) kvs) := by
  simp [reduceVector, getElem?_zipIdx, Function.comp_def]

theorem reduceAt_eq {vector : List (Option V)} {kv : ℤ × V} (hlo : lo ≤ kv.1) (hhi : kv.1 < lo + vector.length) :
    reduceAt lo func vector kv = some (reduceVector lo func vector [kv]) := by
  simp only [reduceAt]
  rw [if_pos ⟨by omega, by omega⟩]
  congr 1
  refine ext_getElem? fun i => ?_
  rw [getElem?_reduceVector, getElem?_set]
  by_cases hi : (kv.1 - lo).toNat = i
  · have hlt : i < vector.length := by omega
    have hkey : kv.1 = (i : ℤ) + lo := by omega
    simp [hlt, valuesOf, hkey]
  · have hkey : ¬ kv.1 = (i : ℤ) + lo := by omega
    simp [hi, valuesOf, hkey, aggregate]

theorem reduceVector_cons (kv : ℤ × V) (kvs : List (ℤ × V)) :
    reduceVector lo func (reduceVector lo func vector [kv]) kvs = reduceVector lo func vector (kv :: kvs) := by
  refine ext_getElem? fun i => ?_
  have happ : valuesOf ((i : ℤ) + lo) (kv :: kvs) =
      valuesOf ((i : ℤ) + lo) [kv] ++ valuesOf ((i : ℤ) + lo) kvs := by
    simp only [valuesOf, ← map_append, ← filter_append, singleton_append]
  simp only [getElem?_reduceVector, Option.map_map, happ, aggregate_append]
  rfl

/-- Inputs whose keys are all within the vectors are reduced into them. -/
theorem foldlM_reduceAt
    (h : ∀ kv ∈ kvs, lo ≤ kv.1 ∧ kv.1 < lo + vector.length) :
    kvs.foldlM (reduceAt lo func) vector = some (reduceVector lo func vector kvs) := by
  induction kvs generalizing vector with
  | nil =>
    refine congrArg some (ext_getElem? fun i => ?_)
    rw [getElem?_reduceVector]
    simp [valuesOf, aggregate]
  | cons kv kvs ih =>
    have hkv := h kv mem_cons_self
    rw [foldlM_cons, reduceAt_eq lo func hkv.1 hkv.2]
    refine (ih _ fun e he => ?_).trans (congrArg some (reduceVector_cons lo func vector kv kvs))
    rw [length_reduceVector]
    exact h e (mem_cons_of_mem _ he)

theorem getElem?_reduceVector_replicate (n : ℕ) (kvs : List (ℤ × V)) {i : ℕ} (hi : i < n) :
    (reduceVector lo func (replicate n none) kvs)[i]? = some (aggregate func none (valuesOf ((i : ℤ) + lo) kvs)) := by
  rw [getElem?_reduceVector, getElem?_replicate, if_pos hi]
  rfl

/-- The second reduction of the same inputs leaves an index as it is exactly if it leaves the
    aggregate as it is. -/
theorem getElem?_reduceVector_twice (n : ℕ) (kvs : List (ℤ × V)) {i : ℕ} (hi : i < n) :
    (reduceVector lo func (reduceVector lo func (replicate n none) kvs) kvs)[i]? =
        (reduceVector lo func (replicate n none) kvs)[i]? ↔
      Refolds func (valuesOf ((i : ℤ) + lo) kvs) := by
  rw [getElem?_reduceVector, getElem?_reduceVector_replicate lo func n kvs hi, Option.map_some, Option.some_inj]
  rfl

theorem reduceVector_eq_self (n : ℕ) {kvs : List (ℤ × V)} (h : ∀ k, Refolds func (valuesOf k kvs)) :
    reduceVector lo func (reduceVector lo func (replicate n none) kvs) kvs =
      reduceVector lo func (replicate n none) kvs := by
  refine ext_getElem? fun i => ?_
  by_cases hi : i < n
  · exact (getElem?_reduceVector_twice lo func n kvs hi).mpr (h _)
  · rw [getElem?_eq_none, getElem?_eq_none] <;>
      simp only [length_reduceVector, length_replicate] <;> omega

/-- The keys of the input are inside the bounds of the operator. -/
def InBounds (xs : List τ) : Prop := ∀ x ∈ xs, lo ≤ (splitTuple x).1 ∧ (splitTuple x).1 ≤ hi

variable {lo hi splitTuple} {u : Iter τ} {xs : List τ}

theorem reduceByIndex_builds (R : Replay u xs) (hxs : InBounds lo hi splitTuple xs)
    {c : List (Option V)} (hc : c.length = (hi - lo + 1).toNat) :
    Builds R (u.foldAll fun vector ret => reduceAt lo func vector (splitTuple ret)) c
      (reduceVector lo func c (xs.map splitTuple)) := by
  refine builds_foldAll R ?_
  rw [← foldlM_reduceAt lo func c (xs.map splitTuple), foldlM_map]
  intro kv hkv
  obtain ⟨x, hx, rfl⟩ := mem_map.mp hkv
  have := hxs x hx
  omega

def reduceByIndexServing (lo hi : ℤ) (splitTuple : τ → ℤ × V) (tupleCat : ℤ × V → ρ)
    (R : Replay u xs) (c : List (Option V)) :
    Serving (reduceByIndexOperator lo hi splitTuple func tupleCat u) :=
  searchServing (materializeServing _ _ (indexedEntries lo) R c) _

/-- A reduction by index whose aggregates survive a second fold replays. -/
def reduceByIndexReplay (R : Replay u xs) (hxs : InBounds lo hi splitTuple xs)
    (h : ∀ k, Refolds func (valuesOf k (xs.map splitTuple))) :
    Replay (reduceByIndexOperator lo hi splitTuple func tupleCat u)
      (reduceByIndexRows lo hi splitTuple func tupleCat xs) :=
  searchReplay (materializeReplay R (reduceByIndex_builds func R hxs (by simp)) (by
    have hbuild := reduceByIndex_builds func R hxs (c := reduceVector lo func
      (replicate (hi - lo + 1).toNat none) (xs.map splitTuple)) (by simp [length_reduceVector])
    rwa [reduceVector_eq_self lo func _ h] at hbuild)) _

variable {tupleCat}

/-- The present elements of the vectors, with their keys. -/
theorem mem_indexedEntries {vector : List (Option V)} {k : ℤ} {v : V} : some (k, v) ∈ indexedEntries lo vector ↔
      ∃ i : ℕ, k = (i : ℤ) + lo ∧ vector[i]? = some (some v) := by
  simp only [indexedEntries, mem_map, Prod.exists, mem_zipIdx_iff_getElem?]
  constructor
  · rintro ⟨value, i, hi, hval⟩
    obtain ⟨w, rfl, hw⟩ := Option.map_eq_some_iff.mp hval
    cases hw
    exact ⟨i, rfl, hi⟩
  · rintro ⟨i, rfl, hi⟩
    exact ⟨some v, i, hi, rfl⟩

/-- The results of a reduction by index determine its vectors. -/
theorem vector_eq_of_rows_eq (hcat : Function.Injective tupleCat) {v1 v2 : List (Option V)}
    (hlen : v1.length = v2.length) (h : ((indexedEntries lo v1).filterMap fun entry => entry.map tupleCat) =
      (indexedEntries lo v2).filterMap fun entry => entry.map tupleCat) : v1 = v2 := by
  have hmem : ∀ (w1 w2 : List (Option V)), ((indexedEntries lo w1).filterMap fun entry => entry.map tupleCat) =
        ((indexedEntries lo w2).filterMap fun entry => entry.map tupleCat) →
      ∀ (i : ℕ) (v : V), w1[i]? = some (some v) → w2[i]? = some (some v) := by
    intro w1 w2 hw i v hi
    have hin : tupleCat ((i : ℤ) + lo, v) ∈ (indexedEntries lo w1).filterMap fun entry => entry.map tupleCat :=
      mem_filterMap.mpr ⟨_, mem_indexedEntries.mpr ⟨i, rfl, hi⟩, rfl⟩
    rw [hw] at hin
    obtain ⟨entry, hentry, hcat'⟩ := mem_filterMap.mp hin
    obtain ⟨kv, rfl, hkv⟩ := Option.map_eq_some_iff.mp hcat'
    obtain rfl := hcat hkv
    obtain ⟨j, hj, hjv⟩ := mem_indexedEntries.mp hentry
    obtain rfl : i = j := by omega
    exact hjv
  refine ext_getElem hlen fun i h1 h2 => ?_
  have hi1 := getElem?_eq_getElem h1
  have hi2 := getElem?_eq_getElem h2
  cases ho1 : v1[i] with
  | some v =>
    have := hmem v1 v2 h i v (hi1.trans (congrArg some ho1))
    rw [hi2] at this
    exact (Option.some.inj this).symm
  | none =>
    cases ho2 : v2[i] with
    | none => rfl
    | some v =>
      have := hmem v2 v1 h.symm i v (hi2.trans (congrArg some ho2))
      rw [hi1, ho1] at this
      exact Option.some.inj this

/-- A reduction by index that replays has aggregates that survive a second fold. -/
theorem reduceByIndex_refolds (hcat : Function.Injective tupleCat) (R : Replay u xs)
    (hxs : InBounds lo hi splitTuple xs) (h : Reopens (reduceByIndexOperator lo hi splitTuple func tupleCat u)
      (reduceByIndexRows lo hi splitTuple func tupleCat xs)) (k : ℤ) :
    Refolds func (valuesOf k (xs.map splitTuple)) := by
  let kvs := xs.map splitTuple
  let n := (hi - lo + 1).toNat
  let v1 := reduceVector lo func (replicate n none) kvs
  obtain ⟨s1, s2, hopen, hreopen, hs2⟩ := materialize_reopen (indexedEntries lo) R
    (reduceByIndex_builds func R hxs (c := replicate n none) (by simp [n]))
    (reduceByIndex_builds func R hxs (c := v1) (by simp [v1, length_reduceVector, n]))
  obtain ⟨s3, hdrain, -⟩ := (reduceByIndexServing func lo hi splitTuple tupleCat R _).drains
    ⟨_, hs2, rfl⟩
  have hagain : Returns ((reduceByIndexOperator lo hi splitTuple func tupleCat u).reopenDrain 0) _ :=
    hdrain.reopenDrain hopen (.pure s1) hreopen
  have heq : reduceVector lo func v1 kvs = v1 :=
    vector_eq_of_rows_eq hcat (length_reduceVector lo func v1 kvs) (hagain.unique (h.again 0))
  by_cases hk : lo ≤ k ∧ k ≤ hi
  · obtain ⟨i, rfl⟩ : ∃ i : ℕ, k = (i : ℤ) + lo := ⟨(k - lo).toNat, by omega⟩
    have hlt : i < n := by omega
    exact (getElem?_reduceVector_twice lo func n kvs hlt).mp (congrArg (·[i]?) heq)
  · have hnone : valuesOf k kvs = [] := by
      refine map_eq_nil_iff.mpr (filter_eq_nil_iff.mpr fun kv hkv => ?_)
      obtain ⟨x, hx, rfl⟩ := mem_map.mp hkv
      have := hxs x hx
      rw [beq_iff_eq]
      rintro rfl
      exact hk this
    show Refolds func (valuesOf k kvs)
    rw [hnone]
    rfl

end ReduceByIndex

end Jitq.Operators

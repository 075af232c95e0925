import Jitq.Operators.Pipelined
import Jitq.Lib.HashTable

namespace Jitq.Operators

open Fuel Pull HashTable

/-! # Reductions without a table, GroupBy and Partition

* `reduceOperator` reads its whole input inside the first `next`;
* `reduceByKeyGroupedOperator` reduces runs of equal keys, with one tuple of look-ahead;
* `groupByOperator` fills a hash table of arrays once: a later `open` returns at once, and leaves the
  output iterator where it was;
* `partitionOperator` distributes its main input over blocks, starting over on each `open`. -/

variable {τ ρ : Type}

/-! ### Reduce -/

/-- The members of `ReduceOperator`. -/
structure ReduceState (σ : Type) where
  upstream : σ
  hasReturned : Bool

/-- `ReduceOperator`: the upstream is opened, read and closed inside `next`. -/
def reduceOperator (function : τ → τ → τ) (upstream : Iter τ) : Iter τ where
  State := ReduceState upstream.State
  fresh := ⟨upstream.fresh, false⟩
  open_ s := pure { s with hasReturned := false }
  next s :=
    if s.hasReturned then pure (none, s)
    else upstream.open_ s.upstream >>= fun u => upstream.next u >>= fun
      | (none, u) => pure (none, ⟨upstream.close u, true⟩)
      | (some ret, u) =>
        upstream.foldAll (fun acc ret => some (function acc ret)) ret u >>= fun (acc, u) =>
          pure (some acc, ⟨upstream.close u, true⟩)
  close s := s

/-- What a reduction returns: nothing for no input, else one tuple. -/
def reduceRows (function : τ → τ → τ) : List τ → List τ
  | [] => []
  | x :: xs => [xs.foldl function x]

theorem reduce_next {u : Iter τ} {xs : List τ} (R : Replay u xs) (f : τ → τ → τ)
    {s : ReduceState u.State} (hidle : R.Idle s.upstream) (hret : s.hasReturned = false) :
    ∃ s', Returns ((reduceOperator f u).next s) ((reduceRows f xs).head?, s') ∧
      R.Idle s'.upstream ∧ s'.hasReturned = true := by
  obtain ⟨s1, hopen, hs1⟩ := R.opens hidle
  simp only [reduceOperator, hret, Bool.false_eq_true, if_false]
  cases xs with
  | nil =>
    obtain ⟨s2, hnext, hs2⟩ := R.next_nil hs1
    exact ⟨⟨u.close s2, true⟩, hopen.bind (hnext.bind (.pure _)), R.close hs2, rfl⟩
  | cons x xs =>
    obtain ⟨s2, hnext, hs2⟩ := R.next_cons hs1
    obtain ⟨s3, hdrain, hs3⟩ := R.drains hs2
    exact ⟨⟨u.close s3, true⟩, hopen.bind (hnext.bind ((hdrain.foldAll_some f x).bind (.pure _))), R.close hs3, rfl⟩

/-- A reduction replays its result. -/
def reduceReplay {u : Iter τ} {xs : List τ} (R : Replay u xs) (f : τ → τ → τ) :
    Replay (reduceOperator f u) (reduceRows f xs) where
  toServing := .ofNext (fun s ys => R.Idle s.upstream ∧
      ys = if s.hasReturned then [] else reduceRows f xs) (by
    rintro s _ ⟨hidle, rfl⟩
    cases hret : s.hasReturned with
    | true =>
      refine ⟨s, ?_, hidle, by simp [hret]⟩
      simp only [reduceOperator, hret, if_true]
      exact .pure _
    | false =>
      obtain ⟨s', hnext, hidle', hret'⟩ := reduce_next R f hidle hret
      refine ⟨s', hnext, hidle', ?_⟩
      rw [hret']
      cases xs <;> rfl)
  Idle s := R.Idle s.upstream
  fresh := R.fresh
  opens h := ⟨_, .pure _, h, rfl⟩
  close h := h.1

/-! ### ReduceByKeyGrouped -/

section ReduceByKeyGrouped

variable {K V : Type} [BEq K] (getKey : τ → K) (getValue : τ → V) (func : V → V → V)
  (buildResult : K × V → ρ)

/-- The members of `ReduceByKeyGroupedOperator`. -/
structure GroupedState (σ τ : Type) where
  upstream : σ
  lastTuple : Option τ

/-- One round of the loop of `ReduceByKeyGroupedOperator::next`, on the value reduced so far. -/
def groupedRound (upstream : Iter τ) (key : K) (s : V × upstream.State) :
    Comp ((V × upstream.State) ⊕ (V × GroupedState upstream.State τ)) :=
  upstream.next s.2 >>= fun
    | (none, u) => pure (.inr (s.1, ⟨u, none⟩))
    | (some t, u) =>
      if getKey t != key then pure (.inr (s.1, ⟨u, some t⟩))
      else pure (.inl (func s.1 (getValue t), u))

/-- `ReduceByKeyGroupedOperator`. -/
def reduceByKeyGroupedOperator (upstream : Iter τ) : Iter ρ where
  State := GroupedState upstream.State τ
  fresh := ⟨upstream.fresh, none⟩
  open_ s := do
    let u ← upstream.open_ s.upstream
    let (lastTuple, u) ← upstream.next u
    pure ⟨u, lastTuple⟩
  next s := match s.lastTuple with
    | none => pure (none, s)
    | some t =>
      iterate (groupedRound getKey getValue func upstream (getKey t)) (getValue t, s.upstream) >>=
        fun (res, s') => pure (some (buildResult (getKey t, res)), s')
  close s := { s with upstream := upstream.close s.upstream }

/-- The runs of equal keys behind a tuple with key `k` whose run is reduced to `v` so far. -/
def groupedFrom (k : K) (v : V) : List τ → List (K × V)
  | [] => [(k, v)]
  | t :: ts =>
    if getKey t != k then (k, v) :: groupedFrom (getKey t) (getValue t) ts
    else groupedFrom k (func v (getValue t)) ts

/-- What a reduction of grouped input returns: one tuple per run of equal keys. -/
def reduceByKeyGroupedRows : List τ → List (K × V)
  | [] => []
  | t :: ts => groupedFrom getKey getValue func (getKey t) (getValue t) ts

variable {u : Iter τ} {xs : List τ}

/-- The loop reduces the run of its key and stops behind it.  The induction is on the tuples that
    are left. -/
theorem grouped_run (R : Replay u xs) {s : u.State} {k : K} {v : V} {ts : List τ} (h : R.Busy s ts) :
    ∃ res s' ts', Iterates (groupedRound getKey getValue func u k) (v, s) (res, s') ∧ R.Busy s'.upstream ts' ∧
      groupedFrom getKey getValue func k v ts = (k, res) ::
        reduceByKeyGroupedRows getKey getValue func (s'.lastTuple.toList ++ ts') ∧
      (s'.lastTuple = none → ts' = []) := by
  induction ts generalizing s v with
  | nil =>
    obtain ⟨s', hnext, hs'⟩ := R.next_nil h
    exact ⟨v, ⟨s', none⟩, [], .done (hnext.bind (.pure _)), hs', rfl, fun _ => rfl⟩
  | cons t ts ih =>
    obtain ⟨s1, hnext, hs1⟩ := R.next_cons h
    by_cases hk : getKey t != k
    · refine ⟨v, ⟨s1, some t⟩, ts, .done (hnext.bind ?_), hs1, ?_, by simp⟩
      · simpa only [hk, if_true] using Returns.pure _
      · rw [groupedFrom, if_pos hk]
        rfl
    · obtain ⟨res, s', ts', hit, hbusy, hfrom, hnone⟩ := ih (v := func v (getValue t)) hs1
      refine ⟨res, s', ts', .step (hnext.bind ?_) hit, hbusy, ?_, hnone⟩
      · simpa only [hk, Bool.false_eq_true, if_false] using Returns.pure _
      · rw [groupedFrom, if_neg hk, hfrom]

/-- A reduction of grouped input replays its runs. -/
def reduceByKeyGroupedReplay (R : Replay u xs) :
    Replay (reduceByKeyGroupedOperator getKey getValue func buildResult u)
      ((reduceByKeyGroupedRows getKey getValue func xs).map buildResult) where
  toServing := .ofNext (fun s ys => ∃ ts, R.Busy s.upstream ts ∧ (s.lastTuple = none → ts = []) ∧
      ys = (reduceByKeyGroupedRows getKey getValue func (s.lastTuple.toList ++ ts)).map
        buildResult) (by
    rintro s _ ⟨ts, hbusy, hts, rfl⟩
    cases hlast : s.lastTuple with
    | none =>
      obtain rfl := hts hlast
      refine ⟨s, ?_, [], hbusy, hts, by simp [hlast, reduceByKeyGroupedRows]⟩
      simp only [reduceByKeyGroupedOperator, hlast]
      exact .pure _
    | some t =>
      obtain ⟨res, s', ts', hit, hbusy', hfrom, hnone⟩ :=
        grouped_run getKey getValue func R (k := getKey t) (v := getValue t) hbusy
      have hrows : reduceByKeyGroupedRows getKey getValue func ((some t).toList ++ ts) = _ := hfrom
      rw [hrows]
      refine ⟨s', ?_, ts', hbusy', hnone, rfl⟩
      simp only [reduceByKeyGroupedOperator, hlast]
      exact hit.returns.bind (.pure _))
  Idle s := R.Idle s.upstream
  fresh := R.fresh
  opens := by
    intro s h
    obtain ⟨s₁, hopen, hs₁⟩ := R.opens h
    obtain ⟨s₂, hnext, hs₂⟩ := R.next hs₁
    refine ⟨⟨s₂, xs.head?⟩, hopen.bind (hnext.bind (.pure _)), xs.tail, hs₂, ?_, ?_⟩
    · cases xs <;> simp
    · cases xs <;> rfl
  close := by
    rintro s ys ⟨ts, hbusy, -, -⟩
    exact R.close hbusy

end ReduceByKeyGrouped

/-! ### GroupBy -/

section GroupBy

variable {K V : Type} [BEq K] (o : IterationOrder K) (fields : τ → K × V)
  (array : K × List V → ρ)

/-- The members of `GroupByOperator`; `currentOutput` is the part of the table's iteration from
    `current_output_it_` on. -/
structure GroupByState (σ K V : Type) where
  upstream : σ
  result : List (K × List V)
  currentOutput : List (K × List V)

/-- `GroupByOperator` on the fields `v0` and `v1`: an `open` with a table that is not empty does
    nothing at all. -/
def groupByOperator (upstream : Iter τ) : Iter ρ where
  State := GroupByState upstream.State K V
  fresh := ⟨upstream.fresh, [], []⟩
  open_ s :=
    if s.result ≠ [] then pure s
    else do
      let u ← upstream.open_ s.upstream
      let (result, u) ←
        upstream.foldAll (fun t ret => some (emplace (· ++ ·) t ((fields ret).1, [(fields ret).2]))) s.result u
      pure ⟨upstream.close u, result, entries o result⟩
  next s := match s.currentOutput with
    | [] => pure (none, s)
    | e :: rest => pure (some (array e), { s with currentOutput := rest })
  close s := s

/-- What a group-by returns: one array per key, in the order of the hash table. -/
def groupByRows (xs : List τ) : List ρ := (entries o (groupTable (xs.map fields))).map array

variable {u : Iter τ} {xs : List τ}

/-- `next` hands out the arrays from the output iterator on. -/
def groupByServing (u : Iter τ) (I : u.State → Prop) (table : List (K × List V)) :
    Serving (groupByOperator o fields array u) :=
  .ofNext (fun s ys => I s.upstream ∧ s.result = table ∧ ys = s.currentOutput.map array) (by
    rintro s _ ⟨hI, htable, rfl⟩
    cases hcur : s.currentOutput with
    | nil =>
      refine ⟨s, ?_, hI, htable, by rw [hcur]; rfl⟩
      simp only [groupByOperator, hcur]
      exact .pure _
    | cons e rest =>
      refine ⟨{ s with currentOutput := rest }, ?_, hI, htable, rfl⟩
      simp only [groupByOperator, hcur]
      exact .pure _)

/-- An `open` with an empty table fills it and sets the output iterator to its beginning. -/
theorem groupBy_open (R : Replay u xs) {s : GroupByState u.State K V} (hidle : R.Idle s.upstream)
    (hres : s.result = []) :
    ∃ s', Returns ((groupByOperator o fields array u).open_ s) s' ∧
      (groupByServing o fields array u R.Idle (groupTable (xs.map fields))).Busy s'
        (groupByRows o fields array xs) := by
  obtain ⟨s1, hopen, hs1⟩ := R.opens hidle
  obtain ⟨s2, hdrain, hs2⟩ := R.drains hs1
  have hfold := hdrain.foldAll_some
    (fun t ret => emplace (· ++ ·) t ((fields ret).1, [(fields ret).2])) []
  rw [foldl_emplace_eq_groupTable fields] at hfold
  refine ⟨⟨u.close s2, groupTable (xs.map fields), entries o (groupTable (xs.map fields))⟩, ?_, R.close hs2, rfl, rfl⟩
  simp only [groupByOperator, hres, ne_eq, not_true_eq_false, if_false]
  exact hopen.bind (hfold.bind (.pure _))

/-- A group-by of an empty input replays. -/
def groupByReplay (R : Replay u []) : Replay (groupByOperator o fields array u) (groupByRows o fields array []) where
  toServing := groupByServing o fields array u R.Idle (groupTable [])
  Idle s := R.Idle s.upstream ∧ s.result = []
  fresh := ⟨R.fresh, rfl⟩
  opens := by
    rintro s ⟨hidle, hres⟩
    exact groupBy_open o fields array R hidle hres
  close h := ⟨h.1, h.2.1⟩

/-- A group-by that is re-opened goes on behind the arrays that it has returned before, so only the
    group-by of an empty input replays. -/
theorem groupBy_input_eq_nil (R : Replay u xs)
    (h : Reopens (groupByOperator o fields array u) (groupByRows o fields array xs)) : xs = [] := by
  by_contra hne
  have htable : groupTable (xs.map fields) ≠ [] := fun hnil =>
    hne (List.map_eq_nil_iff.mp (groupTable_eq_nil hnil))
  obtain ⟨s1, hopen, hs1⟩ := groupBy_open o fields array R (s := ⟨u.fresh, [], []⟩) R.fresh rfl
  obtain ⟨s2, hnexts, hs2⟩ := Serving.nexts _ 1 hs1
  have hreopen : Returns ((groupByOperator o fields array u).open_ s2) s2 := by
    obtain ⟨-, hres, -⟩ := hs2
    simp only [groupByOperator, hres, if_pos htable]
    exact .pure _
  obtain ⟨s3, hdrain, -⟩ := Serving.drains _ hs2
  have heq := (hdrain.reopenDrain hopen hnexts hreopen).unique (h.again 1)
  have hlen := congrArg List.length heq
  rw [List.length_drop] at hlen
  have hrows : (groupByRows o fields array xs).length = 0 := by omega
  rw [groupByRows, List.length_map, (entries_perm o _).length_eq] at hrows
  exact htable (List.length_eq_zero_iff.mp hrows)

end GroupBy

/-! ### Partition -/

/-- The members of `PartitionOperator`; `output` is the part of the list from `output_it_` on. -/
structure PartitionState (σ₁ σ₂ β : Type) where
  mainUpstream : σ₁
  confUpstream : σ₂
  output : List β

section Distribute

variable {γ β B : Type} (insert : ℕ → B → τ → Option B) (init : ℕ → B) (finish : B → List β)
  (fanoutOf : γ → ℕ) (tuple : β → ρ)

/-- The control flow of `PartitionOperator`, for any kind of blocks: `open` reads the fanout and distributes the
    main input, `next` returns the blocks.  Its assertions are compiled out. -/
def distributeOperator (mainUpstream : Iter τ) (confUpstream : Iter γ) : Iter ρ where
  State := PartitionState mainUpstream.State confUpstream.State β
  fresh := ⟨mainUpstream.fresh, confUpstream.fresh, []⟩
  open_ s := do
    let c ← confUpstream.open_ s.confUpstream
    let (ret, c) ← confUpstream.next c
    let fanout ← ofOption (ret.map fanoutOf)
    let m ← mainUpstream.open_ s.mainUpstream
    let (blocks, m) ← mainUpstream.foldAll (insert fanout) (init fanout) m
    pure ⟨mainUpstream.close m, confUpstream.close c, finish blocks⟩
  next s := match s.output with
    | [] => pure (none, s)
    | b :: rest => pure (some (tuple b), { s with output := rest })
  close s := s

variable {insert init finish fanoutOf} {um : Iter τ} {uc : Iter γ} {xs : List τ} {c : γ} {cs : List γ}
  {blocks : List β}

/-- A distribution replays its blocks. -/
def distributeReplay (Rm : Replay um xs) (Rc : Replay uc (c :: cs))
    (h : ∃ b, xs.foldlM (insert (fanoutOf c)) (init (fanoutOf c)) = some b ∧ blocks = finish b) :
    Replay (distributeOperator insert init finish fanoutOf tuple um uc) (blocks.map tuple) where
  toServing := .ofNext (fun s ys => Rm.Idle s.mainUpstream ∧ Rc.Idle s.confUpstream ∧
      ys = s.output.map tuple) (by
    rintro s _ ⟨hm, hc, rfl⟩
    cases hout : s.output with
    | nil =>
      refine ⟨s, ?_, hm, hc, by rw [hout]; rfl⟩
      simp only [distributeOperator, hout]
      exact .pure _
    | cons b rest =>
      refine ⟨{ s with output := rest }, ?_, hm, hc, rfl⟩
      simp only [distributeOperator, hout]
      exact .pure _)
  Idle s := Rm.Idle s.mainUpstream ∧ Rc.Idle s.confUpstream
  fresh := ⟨Rm.fresh, Rc.fresh⟩
  opens := by
    rintro s ⟨hm, hc⟩
    obtain ⟨c₁, hopen₁, hc₁⟩ := Rc.opens hc
    obtain ⟨c₂, hnext, hc₂⟩ := Rc.next_cons hc₁
    obtain ⟨m₁, hopen₂, hm₁⟩ := Rm.opens hm
    obtain ⟨m₂, hdrain, hm₂⟩ := Rm.drains hm₁
    obtain ⟨b, hb, rfl⟩ := h
    exact ⟨_, hopen₁.bind (hnext.bind ((Returns.ofOption rfl).bind (hopen₂.bind
      ((hdrain.foldAll hb).bind (.pure _))))), Rm.close hm₂, Rc.close hc₂, rfl⟩
  close h := ⟨h.1, h.2.1⟩

end Distribute

section Partition

variable {γ : Type} (hash : τ → ℕ) (fanoutOf : γ → ℕ) (tuple : ℕ × List τ → ρ)

/-- The number of tuples that a block can hold. -/
def kBlockCapacity : ℕ := 4096

/-- The loop body of `PartitionOperator::open`, on the finished blocks and the current block of each
    partition; the remainder by a fanout of zero traps. -/
def partitionInsert (fanout : ℕ) (b : List (ℕ × List τ) × List (List τ)) (inputTuple : τ) :
    Option (List (ℕ × List τ) × List (List τ)) :=
  if fanout = 0 then none
  else
    let idx := hash inputTuple % fanout
    let currentBlock := b.2[idx]?.getD []
    if currentBlock.length ≥ kBlockCapacity then
      some (b.1 ++ [(idx, currentBlock)], b.2.set idx [inputTuple])
    else
      some (b.1, b.2.set idx (currentBlock ++ [inputTuple]))

/-- The blocks in the order in which `next` returns them: the full ones as they fill up, then the
    last one of each partition. -/
def partitions (b : List (ℕ × List τ) × List (List τ)) : List (ℕ × List τ) :=
  b.1 ++ b.2.zipIdx.map fun (block, i) => (i, block)

/-- `PartitionOperator`, with the list of its tuples for a block. -/
def partitionOperator (mainUpstream : Iter τ) (confUpstream : Iter γ) : Iter ρ :=
  distributeOperator (partitionInsert hash) (fun fanout => ([], List.replicate fanout [])) partitions fanoutOf
    tuple mainUpstream confUpstream

/-- `blocks` are the blocks of the input `xs` for a fanout, if the fanout is usable. -/
def PartitionBlocks (fanout : ℕ) (xs : List τ) (blocks : List (ℕ × List τ)) : Prop :=
  ∃ b, xs.foldlM (partitionInsert hash fanout) ([], List.replicate fanout []) = some b ∧ blocks = partitions b

/-- A partitioning replays its blocks. -/
def partitionReplay {um : Iter τ} {uc : Iter γ} {xs : List τ} {c : γ} {cs : List γ}
    {blocks : List (ℕ × List τ)} (Rm : Replay um xs) (Rc : Replay uc (c :: cs))
    (h : PartitionBlocks hash (fanoutOf c) xs blocks) :
    Replay (partitionOperator hash fanoutOf tuple um uc) (blocks.map tuple) :=
  distributeReplay tuple Rm Rc h

end Partition

end Jitq.Operators

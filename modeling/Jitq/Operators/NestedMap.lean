import Jitq.Lib.Pull

namespace Jitq.Operators

open Fuel Pull List

/-! # NestedMap and ParallelMapOmp — an inner plan for each tuple

Both operators run an inner plan on each tuple of their input; the plan returns a tuple or nothing.

* `ParallelMapOmpOperator` creates one task per tuple, each with a slot of the result list.  The tasks write their
  slots in any order (`Scheduler`), and `next` skips the empty ones;
* `NestedMapOperator` returns what the inner plan returns.  Its consumer takes a plan that returns nothing for the
  end of the stream.

`maps_agree_iff` — the two return the same tuples, after all of the input was read, exactly if the inner plan returns
a tuple for each input but the last. -/

variable {τ ρ : Type} (innerPlan : τ → Option ρ)

/-! ### NestedMap -/

/-- `NestedMapOperator`. -/
def nestedMapOperator (upstream : Iter τ) : Iter ρ where
  State := upstream.State
  fresh := upstream.fresh
  open_ := upstream.open_
  next s := upstream.next s >>= fun
    | (none, s) => pure (none, s)
    | (some ret, s) => pure (innerPlan ret, s)
  close := upstream.close

/-- The results up to the first input on which the inner plan returns nothing, and the inputs up to it. -/
def untilNothing : List τ → List ρ × List τ
  | [] => ([], [])
  | x :: xs => match innerPlan x with
    | none => ([], [x])
    | some r => (r :: (untilNothing xs).1, x :: (untilNothing xs).2)

variable {u : Iter τ} {xs : List τ}

/-- A nested map ends at the first inner plan that returns nothing. -/
theorem nestedMap_drains (R : Replay u xs) {s : u.logged.State} {read ys : List τ} (h : R.Reading s read ys) :
    ∃ s' : u.logged.State, Drains (nestedMapOperator innerPlan u.logged) s (untilNothing innerPlan ys).1 s' ∧
      s'.2.reduceOption = read ++ (untilNothing innerPlan ys).2 := by
  induction ys generalizing s read with
  | nil =>
    obtain ⟨s', hnext, -, -, hall⟩ := h.next_nil
    refine ⟨s', .nil (hnext.bind (.pure _)), ?_⟩
    rw [hall, ← h.2.2]
    rfl
  | cons y ys ih =>
    obtain ⟨s1, hnext, hs1⟩ := h.next_cons
    cases hy : innerPlan y with
    | none =>
      -- the consumer takes this for the end of the stream
      have hlog : s1.2.reduceOption = read ++ [y] := by
        simp [hs1.2.1, reduceOption, filterMap_map]
      refine ⟨s1, ?_, by simp [untilNothing, hy, hlog]⟩
      simp only [untilNothing, hy]
      refine .nil (hnext.bind ?_)
      simp only [hy]
      exact .pure _
    | some r =>
      obtain ⟨s', hdrain, hlog⟩ := ih hs1
      refine ⟨s', ?_, by simp [untilNothing, hy, hlog]⟩
      simp only [untilNothing, hy]
      refine .cons (hnext.bind ?_) hdrain
      simp only [hy]
      exact .pure _

theorem untilNothing_inputs_eq {xs : List τ} :
    (untilNothing innerPlan xs).2 = xs ↔ ∀ x ∈ xs.dropLast, (innerPlan x).isSome := by
  induction xs with
  | nil => simp [untilNothing]
  | cons x xs ih =>
    cases hx : innerPlan x with
    | none =>
      -- the first input ends the stream: it has to be the only one
      cases xs with
      | nil => simp [untilNothing, hx]
      | cons y ys => simp [untilNothing, hx]
    | some r =>
      cases xs with
      | nil => simp [untilNothing, hx]
      | cons y ys => simpa [untilNothing, hx] using ih

theorem untilNothing_results_eq {xs : List τ} (h : ∀ x ∈ xs.dropLast, (innerPlan x).isSome) :
    (untilNothing innerPlan xs).1 = xs.filterMap innerPlan := by
  induction xs with
  | nil => rfl
  | cons x xs ih =>
    cases hx : innerPlan x with
    | none =>
      cases xs with
      | nil => simp [untilNothing, hx]
      | cons y ys => simp [hx] at h
    | some r =>
      have htail : ∀ z ∈ xs.dropLast, (innerPlan z).isSome := by
        cases xs with
        | nil => simp
        | cons y ys => exact fun z hz => h z (by simp [hz])
      simp [untilNothing, hx, ih htail]

/-! ### ParallelMapOmp -/

/-- An order of the tasks.  A task is the number of its slot and its input. -/
structure Scheduler (τ : Type) where
  /-- The tasks that run after the creation of a task and before the next call of the upstream, in their order, and
      those that stay for later. -/
  running : ℕ → List (ℕ × τ) → List (ℕ × τ) × List (ℕ × τ)
  running_perm : ∀ n tasks, ((running n tasks).1 ++ (running n tasks).2).Perm tasks
  /-- The order of the tasks that run in `taskwait`. -/
  waiting : List (ℕ × τ) → List (ℕ × τ)
  waiting_perm : ∀ tasks, (waiting tasks).Perm tasks

/-- The body of a task: the result of the inner plan goes to the slot. -/
def runTask (results : List (Option ρ)) (task : ℕ × τ) : List (Option ρ) := results.set task.1 (innerPlan task.2)

/-- The result list and the tasks that have not run. -/
structure Tasks (τ ρ : Type) where
  results : List (Option ρ)
  pending : List (ℕ × τ)

variable (scheduler : Scheduler τ)

/-- One round of `MaterializeUpstream`: an empty slot, a task for it, and the tasks that run next. -/
def createTask (s : Tasks τ ρ) (ret : τ) : Tasks τ ρ :=
  let results := s.results ++ [none]
  let tasks := scheduler.running results.length (s.pending ++ [(s.results.length, ret)])
  ⟨tasks.1.foldl (runTask innerPlan) results, tasks.2⟩

/-- `#pragma omp taskwait`. -/
def taskwait (s : Tasks τ ρ) : List (Option ρ) := (scheduler.waiting s.pending).foldl (runTask innerPlan) s.results

/-- The members of `ParallelMapOmpOperator`, with the iterator as a position. -/
structure ParallelMapState (σ ρ : Type) where
  upstream : σ
  results : List (Option ρ)
  resultIt : ℕ

/-- `MaterializeUpstream()`. -/
def materializeUpstream (upstream : Iter τ) (s : ParallelMapState upstream.State ρ) :
    Comp (ParallelMapState upstream.State ρ) := do
  let u ← upstream.open_ s.upstream
  let (tasks, u) ← upstream.foldAll (fun tasks ret => some (createTask innerPlan scheduler tasks ret)) ⟨s.results, []⟩ u
  pure ⟨upstream.close u, taskwait innerPlan scheduler tasks, 0⟩

/-- The loop of `next` over the results from a position on. -/
def nextResult : List (Option ρ) → ℕ → Option ρ × ℕ
  | [], it => (none, it)
  | none :: rest, it => nextResult rest (it + 1)
  | some ret :: _, it => (some ret, it + 1)

/-- `ParallelMapOmpOperator`. -/
def parallelMapOmpOperator (upstream : Iter τ) : Iter ρ where
  State := ParallelMapState upstream.State ρ
  fresh := ⟨upstream.fresh, [], 0⟩
  open_ s := pure { s with resultIt := 0 }
  next s := do
    let s ← if s.results.isEmpty then materializeUpstream innerPlan scheduler upstream s else pure s
    let (ret, it) := nextResult (s.results.drop s.resultIt) s.resultIt
    pure (ret, { s with resultIt := it })
  close s := s

/-- Each slot of the inputs so far has its result, or its task is pending. -/
structure Tasks.Covers (s : Tasks τ ρ) (inputs : List τ) : Prop where
  length : s.results.length = inputs.length
  pending : ∀ task ∈ s.pending, inputs[task.1]? = some task.2
  slot : ∀ (i : ℕ) (x : τ), inputs[i]? = some x → s.results[i]? = some (innerPlan x) ∨ (i, x) ∈ s.pending

variable {innerPlan scheduler} {inputs : List τ}

/-- Tasks may run in any order, as they write different slots.  The induction is on the tasks that run. -/
theorem Tasks.Covers.run {results : List (Option ρ)} {run later : List (ℕ × τ)}
    (h : Tasks.Covers innerPlan ⟨results, run ++ later⟩ inputs) :
    Tasks.Covers innerPlan ⟨run.foldl (runTask innerPlan) results, later⟩ inputs := by
  induction run generalizing results with
  | nil => exact h
  | cons task run ih =>
    refine ih ⟨by simpa [runTask] using h.length, fun t ht => h.pending t (mem_cons_of_mem task ht), ?_⟩
    intro i x hx
    have htask := h.pending task mem_cons_self
    by_cases hi : task.1 = i
    · -- the slot of the task itself
      subst hi
      obtain rfl : task.2 = x := Option.some.inj (htask.symm.trans hx)
      have hlt : task.1 < results.length := by
        have hlen : results.length = inputs.length := h.length
        rw [hlen]
        exact (List.getElem?_eq_some_iff.mp hx).1
      exact .inl (by simp [runTask, hlt])
    · rcases h.slot i x hx with hres | hmem
      · exact .inl (by rw [runTask, getElem?_set_ne hi]; exact hres)
      · rcases mem_cons.mp hmem with rfl | hmem
        · exact absurd rfl hi
        · exact .inr hmem

theorem Tasks.Covers.of_perm {results : List (Option ρ)} {tasks tasks' : List (ℕ × τ)}
    (hperm : tasks'.Perm tasks) (h : Tasks.Covers innerPlan ⟨results, tasks⟩ inputs) :
    Tasks.Covers innerPlan ⟨results, tasks'⟩ inputs :=
  ⟨h.length, fun task htask => h.pending task (hperm.mem_iff.mp htask),
    fun i x hx => (h.slot i x hx).imp_right hperm.mem_iff.mpr⟩

theorem Tasks.Covers.createTask {s : Tasks τ ρ} (h : s.Covers innerPlan inputs) (x : τ) :
    (createTask innerPlan scheduler s x).Covers innerPlan (inputs ++ [x]) := by
  have hlen := h.length
  have hcreated : Tasks.Covers innerPlan ⟨s.results ++ [none], s.pending ++ [(s.results.length, x)]⟩ (inputs ++ [x]) := by
    refine ⟨by simp [hlen], fun task htask => ?_, fun i y hy => ?_⟩
    · rcases mem_append.mp htask with htask | htask
      · have hold := h.pending task htask
        rw [getElem?_append_left (List.getElem?_eq_some_iff.mp hold).1]
        exact hold
      · obtain rfl := mem_singleton.mp htask
        simp [hlen]
    · rcases Nat.lt_or_ge i inputs.length with hlt | hge
      · rw [getElem?_append_left hlt] at hy
        rw [getElem?_append_left (by omega)]
        exact (h.slot i y hy).imp_right (mem_append_left _)
      · -- the slot of the new task
        have hi : i = inputs.length := by
          have := (List.getElem?_eq_some_iff.mp hy).1
          rw [length_append, length_singleton] at this
          omega
        subst hi
        obtain rfl : x = y := by simpa using hy
        exact .inr (by simp [hlen])
  exact (hcreated.of_perm (scheduler.running_perm _ _)).run

theorem Tasks.Covers.foldl {s : Tasks τ ρ} (h : s.Covers innerPlan inputs) (xs : List τ) :
    (xs.foldl (fun s x => Operators.createTask innerPlan scheduler s x) s).Covers innerPlan (inputs ++ xs) := by
  induction xs generalizing s inputs with
  | nil => simpa using h
  | cons x xs ih => simpa using ih (h.createTask x)

/-- Behind the `taskwait` each slot has its result, in whatever order the tasks ran. -/
theorem taskwait_eq (xs : List τ) :
    taskwait innerPlan scheduler (xs.foldl (fun s x => createTask innerPlan scheduler s x) ⟨[], []⟩) =
      xs.map innerPlan := by
  have hinit : Tasks.Covers innerPlan (⟨[], []⟩ : Tasks τ ρ) [] := ⟨rfl, by simp, by simp⟩
  have hcovers : (xs.foldl (fun s x => createTask innerPlan scheduler s x) ⟨[], []⟩).Covers innerPlan _ :=
    hinit.foldl xs
  generalize xs.foldl (fun s x => createTask innerPlan scheduler s x) ⟨[], []⟩ = s at hcovers
  have hperm : (scheduler.waiting s.pending ++ []).Perm s.pending := by
    rw [append_nil]
    exact scheduler.waiting_perm s.pending
  have hdone := (hcovers.of_perm hperm).run
  refine ext_getElem? fun i => ?_
  rw [getElem?_map]
  cases hx : xs[i]? with
  | some x => exact (hdone.slot i x hx).resolve_right not_mem_nil
  | none =>
    apply getElem?_eq_none
    rw [taskwait, hdone.length]
    exact List.getElem?_eq_none_iff.mp hx

theorem nextResult_eq (results : List (Option ρ)) (rest : List (Option ρ)) (it : ℕ) (h : results.drop it = rest) :
    (nextResult rest it).1 = (rest.filterMap id).head? ∧
      (results.drop (nextResult rest it).2).filterMap id = (rest.filterMap id).tail := by
  induction rest generalizing it with
  | nil => simp [nextResult, h]
  | cons r rest ih =>
    have hrest : results.drop (it + 1) = rest := by
      rw [← drop_drop, h]
      rfl
    cases r with
    | none => simpa [nextResult] using ih (it + 1) hrest
    | some ret => simp [nextResult, hrest]

section

variable (innerPlan scheduler) (R : Replay u xs)

/-- The upstream can be read: for the first time, or once more if there is nothing to read. -/
def CanRead (s : u.logged.State) : Prop := R.Idle s.1 ∧ (s.2 = [] ∨ xs = [] ∧ none ∈ s.2 ∧ s.2.reduceOption = [])

/-- All tasks have run, and `ys` are the results behind the iterator.  The whole input is in the log. -/
def ParallelMapState.Holds (s : ParallelMapState u.logged.State ρ) (ys : List ρ) : Prop :=
  s.results = xs.map innerPlan ∧ (none ∈ s.upstream.2 ∧ s.upstream.2.reduceOption = xs) ∧ R.Idle s.upstream.1 ∧
    ys = (s.results.drop s.resultIt).filterMap id

variable {innerPlan R}

theorem CanRead.drains {s : u.logged.State} (h : CanRead R s) :
    ∃ s1 s2, Returns (u.logged.open_ s) s1 ∧ Drains u.logged s1 xs s2 ∧ R.Ended s2 := by
  obtain ⟨s, log⟩ := s
  rcases h with ⟨hidle, hlog | ⟨hnil, hnone, hlog⟩⟩
  · obtain rfl : log = [] := hlog
    obtain ⟨s1, hopen, hs1⟩ := Replay.logged_opens hidle
    obtain ⟨s2, hdrain, hs2⟩ := hs1.drains
    exact ⟨s1, s2, hopen, hdrain, hs2⟩
  · -- there is nothing to read
    obtain ⟨s1, hopen, hs1⟩ := R.opens hidle
    have hbusy : R.toServing.Busy s1 [] := (congrArg (R.toServing.Busy s1) hnil).mp hs1
    have hended : R.Ended (s1, log) := ⟨hbusy, hnone, hlog.trans hnil.symm⟩
    obtain ⟨s2, hnext, hs2⟩ := hended.next
    exact ⟨(s1, log), s2, hopen.bind (.pure _), (congrArg (Drains u.logged (s1, log) · s2) hnil).mpr (.nil hnext), hs2⟩

section

variable {s : ParallelMapState u.logged.State ρ}

theorem materializeUpstream_returns (hresults : s.results = []) (hread : CanRead R s.upstream) :
    ∃ s', Returns (materializeUpstream innerPlan scheduler u.logged s) s' ∧
      s'.Holds innerPlan R (xs.filterMap innerPlan) := by
  obtain ⟨u1, u2, hopen, hdrain, hbusy, hnone, hall⟩ := hread.drains
  have hfold := hdrain.foldAll_some (fun tasks ret => createTask innerPlan scheduler tasks ret) ⟨s.results, []⟩
  rw [hresults] at hfold
  refine ⟨⟨u.logged.close u2, xs.map innerPlan, 0⟩, ?_, rfl, ⟨hnone, hall⟩, R.close hbusy, by simp⟩
  refine hopen.bind ?_
  rw [hresults]
  refine hfold.bind ?_
  simp only [taskwait_eq]
  exact .pure _

/-- Once the results are there, `next` returns them one after the other. -/
theorem ParallelMapState.Holds.next {ys : List ρ} (h : s.Holds innerPlan R ys) :
    ({ s with resultIt := (nextResult (s.results.drop s.resultIt) s.resultIt).2 } :
        ParallelMapState u.logged.State ρ).Holds innerPlan R ys.tail ∧
      (nextResult (s.results.drop s.resultIt) s.resultIt).1 = ys.head? := by
  obtain ⟨hresults, hlog, hidle, rfl⟩ := h
  obtain ⟨hhead, htail⟩ := nextResult_eq s.results (s.results.drop s.resultIt) s.resultIt rfl
  exact ⟨⟨hresults, hlog, hidle, htail.symm⟩, hhead⟩

/-- The first `next` reads the whole input. -/
theorem parallelMap_firstNext (hresults : s.results = []) (hread : CanRead R s.upstream) :
    ∃ s', Returns ((parallelMapOmpOperator innerPlan scheduler u.logged).next s)
        ((xs.filterMap innerPlan).head?, s') ∧
      ParallelMapState.Holds innerPlan R s' (xs.filterMap innerPlan).tail := by
  obtain ⟨s1, hmat, hs1⟩ := materializeUpstream_returns scheduler hresults hread
  obtain ⟨hs', hhead⟩ := hs1.next
  refine ⟨_, ?_, hs'⟩
  simp only [parallelMapOmpOperator, hresults, isEmpty_nil, if_true]
  refine hmat.bind ?_
  rw [← hhead]
  exact .pure _

end

/-- A parallel map that has read its input. -/
def parallelMapServing (scheduler : Scheduler τ) (innerPlan : τ → Option ρ) (R : Replay u xs) :
    Serving (parallelMapOmpOperator innerPlan scheduler u.logged) :=
  .ofNext (fun s ys => ParallelMapState.Holds innerPlan R s ys) (by
    intro s ys h
    cases hresults : s.results with
    | nil =>
      -- an empty result list is taken for one that is not there yet: the empty input is read once more
      have hnil : xs = [] := map_eq_nil_iff.mp (h.1.symm.trans hresults)
      have hread : CanRead R s.upstream := ⟨h.2.2.1, .inr ⟨hnil, h.2.1.1, h.2.1.2.trans hnil⟩⟩
      obtain ⟨s', hnext, hs'⟩ : ∃ s', Returns ((parallelMapOmpOperator innerPlan scheduler u.logged).next s)
          ((xs.filterMap innerPlan).head?, s') ∧ ParallelMapState.Holds innerPlan R s' (xs.filterMap innerPlan).tail :=
        parallelMap_firstNext scheduler hresults hread
      have hys : ys = xs.filterMap innerPlan := by simp [h.2.2.2, hresults, hnil]
      exact ⟨s', by rw [hys]; exact hnext, by rw [hys]; exact hs'⟩
    | cons r rest =>
      obtain ⟨hs', hhead⟩ := h.next
      refine ⟨_, ?_, hs'⟩
      have hne : s.results.isEmpty = false := by rw [hresults]; rfl
      simp only [parallelMapOmpOperator, hne, Bool.false_eq_true, if_false]
      rw [← hhead]
      exact .pure _)

/-- A parallel map returns the results that are there, in input order, and reads all of its input before. -/
theorem parallelMap_drains (innerPlan : τ → Option ρ) {s : ParallelMapState u.logged.State ρ} (hresults : s.results = [])
    (hread : CanRead R s.upstream) :
    ∃ s' : ParallelMapState u.logged.State ρ,
      Drains (parallelMapOmpOperator innerPlan scheduler u.logged) s (xs.filterMap innerPlan) s' ∧
      s'.upstream.2.reduceOption = xs := by
  obtain ⟨s1, hnext, hs1⟩ : ∃ s', Returns ((parallelMapOmpOperator innerPlan scheduler u.logged).next s)
      ((xs.filterMap innerPlan).head?, s') ∧ ParallelMapState.Holds innerPlan R s' (xs.filterMap innerPlan).tail :=
    parallelMap_firstNext scheduler hresults hread
  cases hys : xs.filterMap innerPlan with
  | nil =>
    rw [hys] at hnext
    exact ⟨s1, .nil hnext, hs1.2.1.2⟩
  | cons y ys =>
    rw [hys] at hnext hs1
    obtain ⟨s', hdrain, hs'⟩ := (parallelMapServing scheduler innerPlan R).drains hs1
    exact ⟨s', .cons hnext hdrain, hs'.2.1.2⟩

end

/-! ### The two operators -/

/-- After the first open the operator returns `ys`, and the end of the stream only when all of `inputs` was read;
    `log` is what its upstream has returned. -/
def EmitsAfterAll {p : Iter ρ} (log : p.State → List (Option τ)) (inputs : List τ) (ys : List ρ) : Prop :=
  ∃ s s', Returns (p.open_ p.fresh) s ∧ Drains p s ys s' ∧ (log s').reduceOption = inputs

/-- The log of the upstream of a parallel map. -/
def ParallelMapState.log (s : ParallelMapState u.logged.State ρ) : List (Option τ) := s.upstream.2

/-- The log of the upstream of a nested map. -/
def nestedMapLog (s : u.logged.State) : List (Option τ) := s.2

/-- The inner plan returns a tuple for every input but the last. -/
def ReturnsTuples (innerPlan : τ → Option ρ) (xs : List τ) : Prop := ∀ x ∈ xs.dropLast, (innerPlan x).isSome

/-- **When the maps agree.**  Whatever the order of the tasks, the parallel map returns the results of the inner plans
    in input order, after it has read the whole input.  The nested map does the same exactly if the inner plan returns
    a tuple for every input but the last. -/
theorem maps_agree_iff (innerPlan : τ → Option ρ) (R : Replay u xs) :
    ((∀ scheduler : Scheduler τ, EmitsAfterAll (p := parallelMapOmpOperator innerPlan scheduler u.logged)
        ParallelMapState.log xs (xs.filterMap innerPlan)) ∧
      EmitsAfterAll (p := nestedMapOperator innerPlan u.logged) nestedMapLog xs (xs.filterMap innerPlan)) ↔
      ReturnsTuples innerPlan xs := by
  obtain ⟨s₁, hopen, hs₁⟩ := Replay.logged_opens R.fresh
  obtain ⟨s₂, hdrain, hlog⟩ := nestedMap_drains innerPlan R hs₁
  constructor
  · rintro ⟨-, s₁', s₂', hopen', hdrain', hlog'⟩
    -- the nested map has read the inputs up to the first one without a result
    obtain rfl : s₁ = s₁' := hopen.unique hopen'
    obtain ⟨-, rfl⟩ := hdrain.unique hdrain'
    exact (untilNothing_inputs_eq innerPlan).mp (hlog.symm.trans hlog')
  · intro h
    refine ⟨fun scheduler => ?_, s₁, s₂, hopen, ?_, hlog.trans ((untilNothing_inputs_eq innerPlan).mpr h)⟩
    · obtain ⟨s', hpar, hall⟩ := parallelMap_drains (R := R) scheduler innerPlan
        (s := ⟨u.logged.fresh, [], 0⟩) rfl ⟨R.fresh, .inl rfl⟩
      exact ⟨_, s', .pure _, hpar, hall⟩
    · rw [← untilNothing_results_eq innerPlan h]
      exact hdrain

/-- An inner plan that filters its input. -/
def dropOnes (x : ℕ) : Option ℕ := if x = 1 then none else some x

/-- The nested map returns nothing at all where the parallel map returns the second tuple. -/
theorem nestedMap_ends_early :
    Returns (nestedMapOperator dropOnes (Iter.ofList [1, 2]).logged).firstDrain [] ∧
      ∀ scheduler, Returns (parallelMapOmpOperator dropOnes scheduler (Iter.ofList [1, 2]).logged).firstDrain [2] := by
  constructor
  · obtain ⟨s₁, hopen, hs₁⟩ := (Replay.ofList [1, 2]).logged_opens trivial
    obtain ⟨s₂, hdrain, -⟩ := nestedMap_drains dropOnes (Replay.ofList [1, 2]) hs₁
    exact hdrain.firstDrain hopen
  · intro scheduler
    obtain ⟨s', hdrain, -⟩ := parallelMap_drains (R := Replay.ofList [1, 2]) scheduler dropOnes
      (s := ⟨(Iter.ofList [1, 2]).logged.fresh, [], 0⟩) rfl ⟨trivial, .inl rfl⟩
    exact hdrain.firstDrain (.pure _)

end Jitq.Operators

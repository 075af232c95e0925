import Jitq.Lib.Binary64
import Jitq.Lib.Partial
import Mathlib.Data.List.Perm.Basic
import Mathlib.Tactic.GCongr

namespace Jitq.Python

open Partial List

/-! # Starting the workers of a serverless query

The driver starts one worker of each range of worker ids and gives it the rest of the range to start.  For more than
200 workers the ranges have about the size of the square root of the number of workers, which is computed with
doubles:

* `numRanges_le`, `numRanges_pos` — whatever the roundings do, there are at most as many ranges as workers;
* `mem_workerRanges`, `flatMap_workerRanges` — so the ranges are not empty, and together they are all ids;
* `runLambda_covers` — the worker of a range and those that it starts are the workers of the range;
* `startWorkers_all` — each worker is started once, with its own input, and those that are started by workers start
  no others. -/

/-! ### The driver -/

/-- `event['log_config']`. -/
structure LogConfig where
  level : ℕ
  enableLogUpload : Bool

/-- `event['invocations']`. -/
structure Invocations (α : Type) where
  workerIds : List ℕ
  inputs : List α

/-- What a worker is invoked with. -/
structure Event (α : Type) where
  workerId : ℕ
  numWorkers : ℕ
  queryId : ℕ
  logConfig : LogConfig
  plan : String
  inputs : α
  invocations : Option (Invocations α)

/-- What the driver knows of a query: its id, the encoded plan and whether logs are uploaded. -/
structure Query where
  queryId : ℕ
  plan : String
  enableLogUpload : Bool

/-- `run_lambda`: the event for a range.  An empty range fails in `pop(0)`. -/
def runLambda {α : Type} (query : Query) (numWorkers : ℕ) (inputs : List α) (workerRange : ℕ × ℕ) : Option (Event α) :=
  match range' workerRange.1 (workerRange.2 - workerRange.1) with
  | [] => none
  | workerId :: workerIds => do
    let invocationInputs ← workerIds.mapM fun i => inputs[i]?
    let input ← inputs[workerId]?
    return { workerId, numWorkers, queryId := query.queryId,
             logConfig := { level := 20, enableLogUpload := query.enableLogUpload },
             plan := query.plan,
             inputs := input,
             invocations := some { workerIds, inputs := invocationInputs } }

def workerRangeSize (numWorkers : ℕ) : ℤ :=
  if numWorkers > 200 then ⌈Binary64.sqrt (Binary64.round numWorkers)⌉ else 1

def numRanges (numWorkers : ℕ) : ℕ := ⌈Binary64.round (numWorkers / workerRangeSize numWorkers)⌉₊

def workerRanges (numWorkers : ℕ) : List (ℕ × ℕ) :=
  (range (numRanges numWorkers)).map fun i =>
    ((i + 0) * numWorkers / numRanges numWorkers, (i + 1) * numWorkers / numRanges numWorkers)

/-- `start_workers`: the events that workers are invoked with. -/
def startWorkers {α : Type} (query : Query) (numWorkers : ℕ) (inputs : List α) : Option (List (Event α)) :=
  if inputs.length = numWorkers then (workerRanges numWorkers).mapM (runLambda query numWorkers inputs) else none

/-! ### The handler -/

/-- The handler of a worker, as far as it starts other workers. -/
structure Handler (α : Type) where
  event : Event α
  numWorkers : ℕ

variable {α : Type}

/-- The constructor, of a worker that has started in time. -/
def Handler.init (event : Event α) : Handler α := { event, numWorkers := event.numWorkers }

/-- `_invoke_worker`: the event of another worker is a changed copy of the own event. -/
def Handler.invokeWorker (handler : Handler α) (invocationDetails : ℕ × α) : Event α :=
  { handler.event with
    workerId := invocationDetails.1
    numWorkers := handler.numWorkers
    inputs := invocationDetails.2 }

/-- `_handle_invocations`: the handler without the invocations, which are popped, and the events of the workers that
    it starts. -/
def Handler.handleInvocations (handler : Handler α) : Handler α × List (Event α) :=
  match handler.event.invocations with
  | none => (handler, [])
  | some invocations =>
    let handler := { handler with event := { handler.event with invocations := none } }
    (handler, (invocations.workerIds.zip invocations.inputs).map handler.invokeWorker)

/-- The events of the workers that a worker starts. -/
def Event.starts (event : Event α) : List (Event α) := (Handler.init event).handleInvocations.2

/-! ### The number of ranges -/

/-- The size of a range is at least 2 where it is computed. -/
theorem two_le_workerRangeSize {n : ℕ} (hn : 200 < n) : 2 ≤ workerRangeSize n := by
  rw [workerRangeSize, if_pos hn]
  have hcast : (200 : ℚ) < n := by exact_mod_cast hn
  have hround : (10 : ℚ) ^ 2 ≤ Binary64.round n := by
    have hhalf := Binary64.half_lt_round (lt_trans (by norm_num) hcast)
    linarith
  have hroot := Binary64.half_lt_sqrt (by norm_num : (0 : ℚ) < 10) hround
  have hone : ((1 : ℤ) : ℚ) < Binary64.sqrt (Binary64.round n) := by
    push_cast
    linarith
  exact Int.lt_ceil.mpr hone

theorem one_le_workerRangeSize (n : ℕ) : 1 ≤ workerRangeSize n := by
  by_cases hn : 200 < n
  · exact le_trans (by norm_num) (two_le_workerRangeSize hn)
  · rw [workerRangeSize, if_neg hn]

theorem numRanges_pos {n : ℕ} (hn : 0 < n) : 0 < numRanges n := by
  have hquotient : (0 : ℚ) < n / workerRangeSize n := by
    apply div_pos (by exact_mod_cast hn)
    exact_mod_cast one_le_workerRangeSize n
  have hhalf := Binary64.half_lt_round hquotient
  rw [numRanges, Nat.ceil_pos]
  linarith

theorem numRanges_le (n : ℕ) : numRanges n ≤ n := by
  rw [numRanges, Nat.ceil_le]
  by_cases hn : 200 < n
  · -- the quotient is at most half of the workers, and rounding does not double it
    have hpos : (0 : ℚ) < n := by
      have : 0 < n := by omega
      exact_mod_cast this
    have hsize : (2 : ℚ) ≤ workerRangeSize n := by exact_mod_cast two_le_workerRangeSize hn
    have hquotient : (n : ℚ) / workerRangeSize n ≤ n / 2 := by gcongr
    have hdouble := Binary64.round_lt_double (div_pos hpos (lt_of_lt_of_le two_pos hsize))
    linarith
  · rw [workerRangeSize, if_neg hn, Int.cast_one, div_one, Binary64.round_natCast (by omega)]

example : workerRangeSize 201 = 15 ∧ numRanges 201 = 14 := by decide +kernel

/-! ### The ranges -/

theorem mem_workerRanges {n : ℕ} {r : ℕ × ℕ} (hr : r ∈ workerRanges n) : r.1 < r.2 ∧ r.2 ≤ n := by
  rw [workerRanges, mem_map] at hr
  obtain ⟨i, hi, rfl⟩ := hr
  rw [mem_range] at hi
  have hpos : 0 < numRanges n := by omega
  constructor
  · -- the next range starts at least one id later, as there are at least as many workers as ranges
    show (i + 0) * n / numRanges n < (i + 1) * n / numRanges n
    calc (i + 0) * n / numRanges n < (i * n + numRanges n) / numRanges n := by
          rw [Nat.add_div_right _ hpos, Nat.add_zero]
          omega
      _ ≤ (i + 1) * n / numRanges n := by
          apply Nat.div_le_div_right
          rw [Nat.add_mul, Nat.one_mul]
          exact Nat.add_le_add_left (numRanges_le n) _
  · apply Nat.div_le_of_le_mul
    exact Nat.mul_le_mul_right n hi

/-- The first ranges are the ids up to the start of the next one. -/
theorem flatMap_ranges (n R k : ℕ) : (range k).flatMap (fun i => range' (i * n / R) ((i + 1) * n / R - i * n / R)) =
      range (k * n / R) := by
  induction k with
  | zero => simp
  | succ k ih =>
    have hle : k * n / R ≤ (k + 1) * n / R := Nat.div_le_div_right (by gcongr; omega)
    rw [range_succ, flatMap_append, ih, flatMap_singleton, range_eq_range', range_eq_range']
    have happend := range'_append_1 (s := 0) (m := k * n / R) (n := (k + 1) * n / R - k * n / R)
    rw [Nat.zero_add, Nat.add_sub_cancel' hle] at happend
    exact happend

theorem flatMap_workerRanges (n : ℕ) : (workerRanges n).flatMap (fun r => range' r.1 (r.2 - r.1)) = range n := by
  rw [workerRanges, flatMap_map]
  simp only [Nat.add_zero]
  rw [flatMap_ranges]
  rcases Nat.eq_zero_or_pos n with rfl | hn
  · simp
  · rw [Nat.mul_div_cancel_left n (numRanges_pos hn)]

/-! ### The workers of a range -/

/-- The worker of `event` and those that it starts are the workers of a range. -/
structure Event.Covers (inputs : List α) (r : ℕ × ℕ) (event : Event α) : Prop where
  workerIds : (event :: event.starts).map Event.workerId = range' r.1 (r.2 - r.1)
  inputs_eq : ∀ e ∈ event :: event.starts, inputs[e.workerId]? = some e.inputs ∧ e.numWorkers = inputs.length
  starts_eq_nil : ∀ e ∈ event.starts, e.starts = []

/-- The driver starts the first worker of a range, who starts the others; they have nothing left to start. -/
theorem runLambda_covers (query : Query) {inputs : List α} {r : ℕ × ℕ} (hr : r.1 < r.2 ∧ r.2 ≤ inputs.length) :
    ∃ event, runLambda query inputs.length inputs r = some event ∧ event.Covers inputs r := by
  obtain ⟨first, last⟩ := r
  obtain ⟨others, hothers⟩ : ∃ others, last - first = others + 1 := ⟨last - first - 1, by omega⟩
  obtain ⟨othersInputs, hins⟩ : ∃ othersInputs,
      (range' (first + 1) others).mapM (fun i => inputs[i]?) = some othersInputs := by
    apply exists_mapM_eq_some
    intro i hi
    rw [mem_range'_1] at hi
    exact ⟨_, getElem?_eq_getElem (by omega)⟩
  obtain ⟨hlen, hzip⟩ := forall₂_iff_zip.mp (mapM_eq_some_iff.mp hins)
  have hfirst : inputs[first]? = some inputs[first] := getElem?_eq_getElem (by omega)
  refine ⟨_, by simp only [runLambda, hothers, range'_succ, hins, hfirst]; rfl, ?_, ?_, ?_⟩
  · show first :: ((zip _ othersInputs).map _).map Event.workerId = range' first (last - first)
    rw [hothers, range'_succ, map_map]
    exact congrArg _ (map_fst_zip hlen.le)
  · intro e he
    rcases mem_cons.mp he with rfl | he
    · exact ⟨hfirst, rfl⟩
    · obtain ⟨details, hdetails, rfl⟩ := mem_map.mp he
      exact ⟨hzip hdetails, rfl⟩
  · -- a worker passes on its event after the invocations were popped
    intro e he
    obtain ⟨details, _, rfl⟩ := mem_map.mp he
    rfl

theorem flatMap_workerIds {inputs : List α} {rs : List (ℕ × ℕ)} {events : List (Event α)}
    (h : List.Forall₂ (Event.Covers inputs) rs events) :
    (events.flatMap fun e => (e :: e.starts).map Event.workerId) = rs.flatMap fun r => range' r.1 (r.2 - r.1) := by
  induction h with
  | nil => rfl
  | cons hr _ ih => rw [flatMap_cons, flatMap_cons, hr.workerIds, ih]

/-! ### All workers -/

/-- The ranges are not empty and together they are all worker ids.  The workers that the driver starts and those that
    they start are all workers, each one once and with its own input, and the latter start no others. -/
theorem startWorkers_all (query : Query) (inputs : List α) :
    ((∀ r ∈ workerRanges inputs.length, r.1 < r.2) ∧
      (workerRanges inputs.length).flatMap (fun r => range' r.1 (r.2 - r.1)) = range inputs.length) ∧
    ∃ first, startWorkers query inputs.length inputs = some first ∧
      ((first ++ first.flatMap Event.starts).map Event.workerId).Perm (range inputs.length) ∧
      (∀ e ∈ first ++ first.flatMap Event.starts,
        inputs[e.workerId]? = some e.inputs ∧ e.numWorkers = inputs.length) ∧
      ∀ e ∈ first.flatMap Event.starts, e.starts = [] := by
  refine ⟨⟨fun r hr => (mem_workerRanges hr).1, flatMap_workerRanges _⟩, ?_⟩
  obtain ⟨first, hfirst, hcovers⟩ := exists_mapM_forall₂ fun r hr => runLambda_covers query (mem_workerRanges hr)
  refine ⟨first, by rw [startWorkers, if_pos rfl, hfirst], ?_, ?_, ?_⟩
  · calc ((first ++ first.flatMap Event.starts).map Event.workerId).Perm
          ((first.flatMap fun e => e :: e.starts).map Event.workerId) := by
            apply List.Perm.map
            have hperm := flatMap_append_perm first (fun e => [e]) Event.starts
            rwa [flatMap_singleton'] at hperm
      _ = (workerRanges inputs.length).flatMap (fun r => range' r.1 (r.2 - r.1)) := by
            rw [map_flatMap]
            exact flatMap_workerIds hcovers
      _ = range inputs.length := flatMap_workerRanges _
  · intro e he
    obtain ⟨event, hevent, he⟩ : ∃ event ∈ first, e ∈ event :: event.starts := by
      rcases mem_append.mp he with he | he
      · exact ⟨e, he, mem_cons_self⟩
      · obtain ⟨event, hevent, he⟩ := mem_flatMap.mp he
        exact ⟨event, hevent, mem_cons_of_mem event he⟩
    obtain ⟨r, _, hr⟩ := exists_left_of_mem hcovers hevent
    exact hr.inputs_eq e he
  · intro e he
    obtain ⟨event, hevent, he⟩ := mem_flatMap.mp he
    obtain ⟨r, _, hr⟩ := exists_left_of_mem hcovers hevent
    exact hr.starts_eq_nil e he

end Jitq.Python

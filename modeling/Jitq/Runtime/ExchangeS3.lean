import Jitq.Lib.Transition
import Jitq.Runtime.ExchangeGroup
import Jitq.Runtime.ParquetScan

namespace Jitq.Runtime

open Fuel Pull Transition List Function Option

/-!
# The S3 exchange — every row reaches the member it is meant for

Each worker writes one Parquet file with one row group per member of its group, waits for the files of
all members, and lets a Parquet scan read its own row group of each of them.  The workers run
concurrently and files become visible in any order, so the exchange is a transition system:

* `publish` — the written file becomes visible;
* `enter` / `again` — a call of `ExchangeS3Operator::next` up to its waiting loop, which on the first
  call runs `ConsumeUpstream` and starts one `WaitForFile` task per member; `again` is a call after
  the end of the stream;
* `ready` — the task that waits for a sender's file finds it;
* `return_` — the waiting loop finds a future that is ready, and `next` returns;
* `fetch` / `complete` — the metadata fetcher of the scan opens the next file, or finishes;
* `test` / `wait` — it finds no file and no end of the stream, and waits for `file_infos_cv_`; between
  the two it holds `mutex_`;
* `notify` — the call of `notify_one` at the end of the stream, for which `mutex_` is not taken;
* `wake` — a wake-up without a notification.

A notification between `test` and `wait` is lost.  `exchangeS3_delivers` is the contract over every
trace of this system, with what the scans return as long as no notification is lost;
`exchangeS3_losesNotification` is a trace that ends with a scan that waits forever.
-/

variable {ρ κ : Type}

/-- One exchange operator as it runs on all workers, and what their main upstreams return: tuples of a
    partition id and the rows of one record batch.  `statistics` is what the Parquet writer records of
    the rows of a row group. -/
structure ExchangeS3 (ρ κ : Type) where
  numWorkers : ℕ
  numLevels : ℕ
  levelNum : ℕ
  bucketName : String
  queryId : ℕ
  exchangeId : ℕ
  upstream : ℕ → List (ℤ × List ρ)
  statistics : List ρ → ℕ → κ × κ

/-- What `next` returns for one file. -/
structure FileDescriptor where
  filePath : String
  sliceFrom : ℕ
  sliceTo : ℕ
  numSlices : ℕ
  deriving DecidableEq

/-- Where the thread of `FetchMetaData` is: about to take `mutex_` and to test whether there is a file
    or the end of the stream; behind a test that found neither, with `mutex_` still held; waiting. -/
inductive MetadataFetcher
  | testing
  | deciding
  | waiting
  deriving DecidableEq

/-- A notification ends a wait. -/
def MetadataFetcher.notified : MetadataFetcher → MetadataFetcher
  | waiting => testing
  | fetcher => fetcher

/-- The members of `ExchangeS3Operator` and of the `ParquetFileOperator` on top of it, on one worker.
    A pending result is the sender of the awaited file and whether its future is ready; `results` is
    the history of what `next` returned; `notifying` is whether the end of the stream has been seen
    and not been notified yet. -/
structure ExchangeWorker (ρ κ : Type) where
  pendingResults : List (ℕ × Bool)
  returnedResults : List String
  calling : Bool
  written : Option (ParquetFile ρ κ)
  results : List (Option FileDescriptor)
  fileInfos : List (String × RowGroupRange)
  hasUpstreamCompleted : Bool
  fileHandles : List (ParquetFileHandle ρ κ)
  hasPrefetchingCompleted : Bool
  fetcher : MetadataFetcher
  notifying : Bool

/-- A worker before the first call of `next`. -/
def ExchangeWorker.initial (fetcher : MetadataFetcher) : ExchangeWorker ρ κ :=
  ⟨[], [], false, none, [], [], false, [], false, fetcher, false⟩

/-- The objects that are visible in S3, and the workers. -/
structure ExchangeState (ρ κ : Type) where
  files : String → Option (ParquetFile ρ κ)
  workers : ℕ → ExchangeWorker ρ κ

/-- What one worker does. -/
inductive WorkerAction
  | enter
  | again
  | ready (sender : ℕ)
  | return_
  | fetch
  | complete
  | test
  | wait
  | notify
  | wake

inductive ExchangeEvent
  | publish (worker : ℕ)
  | act (worker : ℕ) (action : WorkerAction)

namespace ExchangeS3

variable (X : ExchangeS3 ρ κ)

variable (worker : ℕ)

def groupMembers : List ℕ := computeGroupMembers X.numLevels X.levelNum X.numWorkers worker

def groupSize : ℕ := computeGroupSize X.numLevels X.levelNum X.numWorkers worker

/-! ### Files -/

/-- The key that `WaitForFile` asks for. -/
def waitKey (sender : ℕ) : String :=
  "jitq/query-" ++ toString X.queryId ++ "/exchange-" ++ toString X.exchangeId ++ "/" ++ toString sender ++ ".parquet"

/-- The path that `WaitForFile` returns. -/
def waitPath (sender : ℕ) : String := "s3://" ++ X.bucketName ++ "/" ++ X.waitKey sender

/-- The path that `ConsumeUpstream` writes to. -/
def writePath : String :=
  "s3://" ++ X.bucketName ++ "/jitq/query-" ++ toString X.queryId ++ "/exchange-" ++
    toString X.exchangeId ++ "/" ++ toString worker ++ ".parquet"

/-- The record batches of each partition, after the loop over the upstream. -/
def partitions : ℤ → List (List ρ) :=
  (X.upstream worker).foldl
    (fun partitions batch => update partitions batch.1 (partitions batch.1 ++ [batch.2]))
    fun _ => []

/-- The table of one partition as a row group. -/
def rowGroup (worker i : ℕ) : RowGroup ρ κ :=
  let rows := (X.partitions worker i).flatten
  ⟨rows, X.statistics rows⟩

/-- `ConsumeUpstream`: one row group per group member.  More row groups than an `int` can count cannot
    be written. -/
def consumeUpstream : Option (ParquetFile ρ κ) :=
  let rowGroups := (range (X.groupSize worker)).map (X.rowGroup worker)
  if h : rowGroups.length < 2 ^ 31 then some ⟨rowGroups, h⟩ else none

/-! ### `ExchangeS3Operator::next` -/

/-- The loop that looks for the own index among the group members. -/
def sliceIndex : ℕ :=
  (range (X.groupMembers worker).length).foldl
    (fun slice i => if (X.groupMembers worker)[i]? = some worker then i else slice) 0

def descriptor (worker sender : ℕ) : FileDescriptor :=
  ⟨X.waitPath sender, X.sliceIndex worker, X.sliceIndex worker + 1, X.groupSize worker⟩

/-- `next` up to the waiting loop. -/
def enterNext (s : ExchangeWorker ρ κ) : Option (ExchangeWorker ρ κ) := do
  let s ←
    -- the first call
    if s.pendingResults = [] ∧ s.returnedResults = [] then (X.consumeUpstream worker).map fun file => { s with
          written := some file
          pendingResults := (X.groupMembers worker).map fun sender => (sender, false) }
    else some s
  if s.pendingResults = [] then
    some { s with results := s.results ++ [none], hasUpstreamCompleted := true }
  else some { s with calling := true }

/-- The first future that is ready, and the other ones. -/
def takeReady : List (ℕ × Bool) → Option (ℕ × List (ℕ × Bool))
  | [] => none
  | (sender, true) :: rest => some (sender, rest)
  | (sender, false) :: rest => (takeReady rest).map fun r => (r.1, (sender, false) :: r.2)

/-- The end of `next` for a sender whose file is there.  The upstream fetcher of the scan, which made
    the call, puts the descriptor into its queue and notifies the metadata fetcher. -/
def returnResult (worker sender : ℕ) (rest : List (ℕ × Bool)) (s : ExchangeWorker ρ κ) : ExchangeWorker ρ κ :=
  let d := X.descriptor worker sender
  { s with
    pendingResults := rest
    returnedResults :=
      if d.filePath ∈ s.returnedResults then s.returnedResults
      else s.returnedResults ++ [d.filePath]
    calling := false
    results := s.results ++ [some d]
    fileInfos := s.fileInfos ++ [(d.filePath, ⟨d.sliceFrom, d.sliceTo, d.numSlices⟩)]
    fetcher := s.fetcher.notified }

/-! ### The system -/

def setWorker (s : ExchangeState ρ κ) (worker : ℕ) (ws : ExchangeWorker ρ κ) : ExchangeState ρ κ :=
  { s with workers := update s.workers worker ws }

theorem setWorker_self (s : ExchangeState ρ κ) (w : ℕ) (ws : ExchangeWorker ρ κ) :
    (setWorker s w ws).workers w = ws := update_self ..

theorem setWorker_of_ne (s : ExchangeState ρ κ) {v w : ℕ} (h : v ≠ w) (ws : ExchangeWorker ρ κ) :
    (setWorker s w ws).workers v = s.workers v := update_of_ne h ..

/-- What holds of the worker that is set and held of the other ones holds of all. -/
theorem forall_setWorker {s : ExchangeState ρ κ} {w : ℕ} {ws : ExchangeWorker ρ κ}
    {P : ℕ → ExchangeWorker ρ κ → Prop} {D : ℕ → Prop} (h : ∀ v, D v → P v (s.workers v))
    (hws : D w → P w ws) (v : ℕ) (hv : D v) : P v ((setWorker s w ws).workers v) := by
  by_cases hvw : v = w
  · subst hvw
    rw [setWorker_self]
    exact hws hv
  · rw [setWorker_of_ne s hvw]
    exact h v hv

/-- One action of worker `w` while `files` are visible. -/
def act (files : String → Option (ParquetFile ρ κ)) (w : ℕ) (ws : ExchangeWorker ρ κ) :
    WorkerAction → Option (ExchangeWorker ρ κ)
  | .enter =>
    if ws.calling = false ∧ ws.hasUpstreamCompleted = false then
      (X.enterNext w ws).map fun ws' => { ws' with notifying := ws'.hasUpstreamCompleted }
    else none
  | .again =>
    if ws.calling = false ∧ ws.hasUpstreamCompleted = true then X.enterNext w ws else none
  | .ready sender =>
    if (sender, false) ∈ ws.pendingResults ∧ (files (X.waitPath sender)).isSome then
      some { ws with pendingResults := ws.pendingResults.map fun r =>
        if r.1 = sender then (sender, true) else r }
    else none
  | .return_ =>
    -- the queue is protected by `mutex_`
    if ws.calling = true ∧ ws.fetcher ≠ .deciding then
      (takeReady ws.pendingResults).map fun r => X.returnResult w r.1 r.2 ws
    else none
  | .fetch =>
    if ws.fetcher = .testing then do
      let info ← ws.fileInfos.head?
      let file ← files info.1
      some { ws with
        fileInfos := ws.fileInfos.tail
        fileHandles := ws.fileHandles ++ [⟨info.1, file, info.2⟩] }
    else none
  | .complete =>
    if ws.fetcher = .testing ∧ ws.fileInfos = [] ∧ ws.hasUpstreamCompleted = true ∧
        ws.hasPrefetchingCompleted = false then
      some { ws with hasPrefetchingCompleted := true }
    else none
  | .test =>
    if ws.fetcher = .testing ∧ ws.fileInfos = [] ∧ ws.hasUpstreamCompleted = false then
      some { ws with fetcher := .deciding }
    else none
  | .wait => if ws.fetcher = .deciding then some { ws with fetcher := .waiting } else none
  | .notify =>
    if ws.notifying = true then
      some { ws with fetcher := ws.fetcher.notified, notifying := false }
    else none
  | .wake => if ws.fetcher = .waiting then some { ws with fetcher := .testing } else none

/-- One event, for one of the existing workers. -/
def step (s : ExchangeState ρ κ) : ExchangeEvent → Option (ExchangeState ρ κ)
  | .publish w =>
    if w < X.numWorkers ∧ s.files (X.writePath w) = none then
      (s.workers w).written.map fun file =>
        { s with files := update s.files (X.writePath w) (some file) }
    else none
  | .act w action =>
    if w < X.numWorkers then (X.act s.files w (s.workers w) action).map (setWorker s w) else none

def system : System (ExchangeState ρ κ) ExchangeEvent where
  init := ⟨fun _ => none, fun _ => .initial .testing⟩
  step := X.step

/-- The columns of a scan.  The pass that puts the exchange into the plan asks for all of them without
    any range filter. -/
def columnInfos (width : ℕ) : List (ColumnInfo κ) := (range width).map fun colId => ⟨colId, []⟩

/-- The Parquet scan of a worker that is in its last state. -/
def scan [LE κ] [DecidableLE κ] (width : ℕ) (ws : ExchangeWorker ρ κ) : Iter (List ρ) :=
  makeParquetScanOperator (columnInfos width)
    (parquetFileOperator ws.fileHandles ws.hasPrefetchingCompleted)

/-! ### What the definitions compute -/

/-- The writer and the readers of a file use the same path. -/
theorem writePath_eq_waitPath (w : ℕ) : X.writePath w = X.waitPath w := by
  have hslash : "/jitq/query-" = "/" ++ "jitq/query-" := rfl
  unfold writePath waitPath waitKey
  rw [hslash]
  simp only [String.append_assoc]

theorem waitPath_injective : Function.Injective X.waitPath := by
  intro a b hab
  unfold waitPath waitKey at hab
  rw [String.append_right_inj, String.append_left_inj, String.append_right_inj] at hab
  exact Nat.repr_inj.mp hab

/-- The rows that a sender put under a partition id. -/
def rowsFor (sender p : ℕ) : List ρ := ((X.upstream sender).filter fun batch => batch.1 = (p : ℤ)).flatMap Prod.snd

theorem rows_rowGroup (w i : ℕ) : (X.rowGroup w i).rows = X.rowsFor w i := by
  suffices ∀ (batches : List (ℤ × List ρ)) (init : ℤ → List (List ρ)),
      (batches.foldl (fun (partitions : ℤ → List (List ρ)) batch =>
        update partitions batch.1 (partitions batch.1 ++ [batch.2])) init i).flatten =
      (init i).flatten ++ (batches.filter fun batch => batch.1 = (i : ℤ)).flatMap Prod.snd from
    this (X.upstream w) fun _ => []
  intro batches
  induction batches with
  | nil => simp
  | cons batch rest ih =>
    intro init
    rw [foldl_cons, ih]
    by_cases hkey : batch.1 = i
    · simp [hkey]
    · rw [update_of_ne (Ne.symm hkey), filter_cons_of_neg (by simpa using hkey)]

variable {file : ParquetFile ρ κ} {l rest : List (ℕ × Bool)} {sender : ℕ} {s : ExchangeState ρ κ}

theorem rowGroups_eq {w : ℕ} (hfile : X.consumeUpstream w = some file) :
    file.rowGroups = (range (X.groupSize w)).map (X.rowGroup w) := by
  unfold consumeUpstream at hfile
  dsimp only at hfile
  split at hfile
  · cases hfile
    rfl
  · simp at hfile

/-- The search loop ends with the index of the worker in its group. -/
theorem getElem?_sliceIndex {w : ℕ} (hw : w ∈ X.groupMembers w) : (X.groupMembers w)[X.sliceIndex w]? = some w := by
  -- after `n` rounds the slice is a matching index if there is one below `n`
  have hloop : ∀ n, (∃ i < n, (X.groupMembers w)[i]? = some w) →
      (X.groupMembers w)[(range n).foldl (fun slice i =>
        if (X.groupMembers w)[i]? = some w then i else slice) 0]? = some w := by
    intro n
    induction n with
    | zero => rintro ⟨i, hi, -⟩; exact absurd hi (Nat.not_lt_zero i)
    | succ n ih =>
      rintro ⟨i, hi, hmatch⟩
      rw [range_succ, foldl_append, foldl_cons, foldl_nil]
      split
      · assumption
      · rename_i hn
        refine ih ⟨i, lt_of_le_of_ne (Nat.le_of_lt_succ hi) ?_, hmatch⟩
        rintro rfl
        exact hn hmatch
  obtain ⟨i, hi, hget⟩ := mem_iff_getElem.mp hw
  exact hloop _ ⟨i, hi, by rw [getElem?_eq_getElem hi, hget]⟩

theorem takeReady_eq_some (h : takeReady l = some (sender, rest)) :
    ∃ pre post, l = pre ++ (sender, true) :: post ∧ rest = pre ++ post := by
  induction l generalizing rest with
  | nil => simp [takeReady] at h
  | cons r l ih =>
    obtain ⟨t, ready⟩ := r
    cases ready with
    | true =>
      obtain ⟨rfl, rfl⟩ := Prod.mk.inj (some.inj h)
      exact ⟨[], l, rfl, rfl⟩
    | false =>
      obtain ⟨⟨sender', rest'⟩, hrec, heq⟩ := map_eq_some_iff.mp h
      cases heq
      obtain ⟨pre, post, rfl, rfl⟩ := ih hrec
      exact ⟨(t, false) :: pre, post, rfl, rfl⟩

theorem takeReady_isSome (h : (sender, true) ∈ l) : (takeReady l).isSome := by
  induction l with
  | nil => simp at h
  | cons r l ih =>
    obtain ⟨t, ready⟩ := r
    cases ready with
    | true => rfl
    | false =>
      have hmem : (sender, true) ∈ l := by simpa using h
      rw [takeReady, isSome_map]
      exact ih hmem

/-! ### Invariants -/

/-- The setting of the exchange: a supported level, partition ids below the group size of the sender,
    and no more row groups than a Parquet file can have. -/
structure Valid : Prop where
  level : SupportedLevel X.numLevels X.levelNum
  partition_lt : ∀ w < X.numWorkers, ∀ batch ∈ X.upstream w, 0 ≤ batch.1 ∧ batch.1 < X.groupSize w
  countable : ∀ w < X.numWorkers, X.groupSize w < 2 ^ 31

variable {X}

theorem Valid.self_mem (hX : X.Valid) {w : ℕ} (hw : w < X.numWorkers) : w ∈ X.groupMembers w :=
  self_mem_computeGroupMembers hX.level hw

theorem Valid.groupMembers_ne_nil (hX : X.Valid) {w : ℕ} (hw : w < X.numWorkers) :
    X.groupMembers w ≠ [] := ne_nil_of_mem (hX.self_mem hw)

theorem Valid.consumeUpstream (hX : X.Valid) {w : ℕ} (hw : w < X.numWorkers) :
    ∃ file, X.consumeUpstream w = some file := by
  have hlen : ((range (X.groupSize w)).map (X.rowGroup w)).length < 2 ^ 31 := by
    rw [length_map, length_range]
    exact hX.countable w hw
  exact ⟨⟨_, hlen⟩, dif_pos hlen⟩

variable (X)

def rangeOf (w : ℕ) : RowGroupRange := ⟨X.sliceIndex w, X.sliceIndex w + 1, X.groupSize w⟩

/-- A handle on the file of a sender, with the slice of worker `w`. -/
structure IsHandle (w sender : ℕ) (handle : ParquetFileHandle ρ κ) : Prop where
  filePath : handle.filePath = X.waitPath sender
  reader : X.consumeUpstream sender = some handle.reader
  rowGroupRange : handle.rowGroupRange = X.rangeOf w

/-- The invariant of a worker that has been given the files of `got`, in this order. -/
structure WorkerInv (files : String → Option (ParquetFile ρ κ)) (w : ℕ) (ws : ExchangeWorker ρ κ)
    (got : List ℕ) : Prop where
  initial : ws.written = none → (∃ fetcher, ws = .initial fetcher) ∧ got = []
  written : ∀ file, ws.written = some file → X.consumeUpstream w = some file
  group : ws.written ≠ none → (got ++ ws.pendingResults.map Prod.fst).Perm (X.groupMembers w)
  returned : ws.returnedResults = got.map X.waitPath
  visible : ∀ sender, sender ∈ got ∨ (sender, true) ∈ ws.pendingResults → (files (X.waitPath sender)).isSome
  calling : ws.calling = true → ws.pendingResults ≠ []
  results : ∃ k, ws.results = got.map (fun sender => some (X.descriptor w sender)) ++ replicate k none ∧
    (ws.hasUpstreamCompleted = true ↔ 0 < k) ∧
    (0 < k → ws.pendingResults = [] ∧ ws.written ≠ none)
  infos : ws.fileInfos = (got.drop ws.fileHandles.length).map fun sender => (X.waitPath sender, X.rangeOf w)
  handles : List.Forall₂ (X.IsHandle w) (got.take ws.fileHandles.length) ws.fileHandles
  prefetched : ws.hasPrefetchingCompleted = true → ws.hasUpstreamCompleted = true ∧ ws.fileInfos = []
  notifying : ws.notifying = true → ws.hasUpstreamCompleted = true

/-- The invariant of the whole exchange; a visible file is one that a worker wrote. -/
structure Inv (s : ExchangeState ρ κ) : Prop where
  workers : ∀ w < X.numWorkers, ∃ got, X.WorkerInv s.files w (s.workers w) got
  files : ∀ sender file, s.files (X.waitPath sender) = some file → X.consumeUpstream sender = some file

theorem workerInv_initial (files : String → Option (ParquetFile ρ κ)) (w : ℕ)
    (fetcher : MetadataFetcher) : X.WorkerInv files w (.initial fetcher) [] where
  initial _ := ⟨⟨fetcher, rfl⟩, rfl⟩
  written := by simp [ExchangeWorker.initial]
  group := by simp [ExchangeWorker.initial]
  returned := rfl
  visible := by simp [ExchangeWorker.initial]
  calling := by simp [ExchangeWorker.initial]
  results := ⟨0, by simp [ExchangeWorker.initial]⟩
  infos := rfl
  handles := .nil
  prefetched := by simp [ExchangeWorker.initial]
  notifying := by simp [ExchangeWorker.initial]

theorem inv_init : X.Inv X.system.init where
  workers w _ := ⟨[], X.workerInv_initial _ w .testing⟩
  files _ _ h := by simp [system] at h

variable {X} {files : String → Option (ParquetFile ρ κ)} {w : ℕ} {ws ws' : ExchangeWorker ρ κ}
  {got : List ℕ}

/-- `next` has been called if there are pending results, results or a queue. -/
theorem WorkerInv.written_ne_none (h : X.WorkerInv files w ws got)
    (hne : ws.pendingResults ≠ [] ∨ got ≠ [] ∨ ws.fileInfos ≠ [] ∨ ws.calling = true ∨
      ws.hasUpstreamCompleted = true) : ws.written ≠ none := by
  intro hnone
  obtain ⟨⟨_, rfl⟩, rfl⟩ := h.initial hnone
  simp [ExchangeWorker.initial] at hne

/-- The senders that were returned or are awaited are distinct. -/
theorem WorkerInv.nodup (h : X.WorkerInv files w ws got) : (got ++ ws.pendingResults.map Prod.fst).Nodup := by
  by_cases hw : ws.written = none
  · obtain ⟨⟨_, rfl⟩, rfl⟩ := h.initial hw
    simp [ExchangeWorker.initial]
  · exact (h.group hw).nodup_iff.mpr (nodup_computeGroupMembers _ _ _ _)

section

variable (hX : X.Valid) (hw : w < X.numWorkers) (h : X.WorkerInv files w ws got)

include hX hw h

/-- `next` has not been called exactly while there are neither pending nor returned results. -/
theorem WorkerInv.started_iff : ws.pendingResults = [] ∧ ws.returnedResults = [] ↔ ws.written = none := by
  constructor
  · rintro ⟨hpend, hretd⟩
    by_contra hwritten
    have hgrp := h.group hwritten
    rw [h.returned, map_eq_nil_iff] at hretd
    rw [hpend, hretd] at hgrp
    exact hX.groupMembers_ne_nil hw (nil_perm.mp hgrp)
  · intro hwritten
    obtain ⟨⟨_, rfl⟩, -⟩ := h.initial hwritten
    exact ⟨rfl, rfl⟩

/-- What a call does before the waiting loop: it starts the exchange, returns the end of the stream, or
    goes on to wait. -/
theorem enterNext_cases
    (henter : X.enterNext w ws = some ws') : (ws.written = none ∧ ∃ file, X.consumeUpstream w = some file ∧
      ws' = { ws with
        written := some file
        pendingResults := (X.groupMembers w).map fun sender => (sender, false)
        calling := true }) ∨
    (ws.written ≠ none ∧ ws.pendingResults = [] ∧
      ws' = { ws with results := ws.results ++ [none], hasUpstreamCompleted := true }) ∨
    (ws.written ≠ none ∧ ws.pendingResults ≠ [] ∧ ws' = { ws with calling := true }) := by
  have hstarted := h.started_iff hX hw
  unfold enterNext at henter
  by_cases hwritten : ws.written = none
  · obtain ⟨file, hfile⟩ := hX.consumeUpstream hw
    rw [if_pos (hstarted.mpr hwritten), hfile] at henter
    refine .inl ⟨hwritten, file, hfile, ?_⟩
    simpa [hX.groupMembers_ne_nil hw] using henter.symm
  · rw [if_neg (mt hstarted.mp hwritten)] at henter
    by_cases hpend : ws.pendingResults = []
    · refine .inr (.inl ⟨hwritten, hpend, ?_⟩)
      simpa [hpend] using henter.symm
    · refine .inr (.inr ⟨hwritten, hpend, ?_⟩)
      simpa [hpend] using henter.symm

theorem WorkerInv.enterNext (henter : X.enterNext w ws = some ws') : X.WorkerInv files w ws' got := by
  obtain ⟨hnone, file, hfile, rfl⟩ | ⟨hwritten, hpend, rfl⟩ | ⟨hwritten, hpend, rfl⟩ :=
    enterNext_cases hX hw h henter
  · obtain ⟨⟨fetcher, rfl⟩, rfl⟩ := h.initial hnone
    refine { h with
      initial := by simp, written := ?_, group := ?_, visible := by simp, calling := ?_
      results := ⟨0, by simp [ExchangeWorker.initial]⟩ }
    · intro file' hfile'
      rw [← some.inj hfile', hfile]
    · intro _
      simp [comp_def]
    · exact fun _ hnil => hX.groupMembers_ne_nil hw (map_eq_nil_iff.mp hnil)
  · refine { h with
      initial := fun hnone => absurd hnone hwritten, results := ?_, prefetched := ?_
      notifying := fun _ => rfl }
    · obtain ⟨k, hresults, -, -⟩ := h.results
      refine ⟨k + 1, ?_, by simp, fun _ => ⟨hpend, hwritten⟩⟩
      show ws.results ++ [none] = _
      rw [hresults, append_assoc, replicate_succ']
    · exact fun hpre => ⟨rfl, (h.prefetched hpre).2⟩
  · exact { h with initial := fun hnone => absurd hnone hwritten, calling := fun _ => hpend }

end

section

variable (h : X.WorkerInv files w ws got)

include h

theorem WorkerInv.ready (hmem : (sender, false) ∈ ws.pendingResults) (hvisible : (files (X.waitPath sender)).isSome) :
    X.WorkerInv files w { ws with pendingResults := ws.pendingResults.map fun r =>
      if r.1 = sender then (sender, true) else r } got := by
  have hsenders : (ws.pendingResults.map fun r => if r.1 = sender then (sender, true) else r).map
      Prod.fst = ws.pendingResults.map Prod.fst := by
    rw [List.map_map]
    refine map_congr_left fun r _ => ?_
    rw [comp_apply]
    split
    · rename_i heq; exact heq.symm
    · rfl
  have hwritten : ws.written ≠ none := h.written_ne_none (.inl (ne_nil_of_mem hmem))
  refine { h with
    initial := fun hnone => absurd hnone hwritten, group := ?_, visible := ?_, calling := ?_
    results := ?_ }
  · intro _
    show (got ++ List.map Prod.fst (ws.pendingResults.map _)).Perm _
    rw [hsenders]
    exact h.group hwritten
  · rintro t (hgot | hready)
    · exact h.visible t (.inl hgot)
    · obtain ⟨r, hr, heq⟩ := mem_map.mp hready
      split at heq
      · obtain ⟨rfl, -⟩ := Prod.mk.inj heq
        exact hvisible
      · exact h.visible t (.inr (heq ▸ hr))
  · intro hcalling
    exact fun hnil => h.calling hcalling (map_eq_nil_iff.mp hnil)
  · obtain ⟨k, hresults, hcompl, hk⟩ := h.results
    exact ⟨k, hresults, hcompl, fun hpos =>
      ⟨map_eq_nil_iff.mpr (hk hpos).1, hwritten⟩⟩

/-- Returning a result moves its sender from the awaited to the returned ones. -/
theorem WorkerInv.returnResult (htake : takeReady ws.pendingResults = some (sender, rest)) :
    X.WorkerInv files w (X.returnResult w sender rest ws) (got ++ [sender]) := by
  obtain ⟨pre, post, hpend, rfl⟩ := takeReady_eq_some htake
  have hready : (sender, true) ∈ ws.pendingResults := by rw [hpend]; simp
  have hne : ws.pendingResults ≠ [] := ne_nil_of_mem hready
  have hwritten : ws.written ≠ none := h.written_ne_none (.inl hne)
  have hnew : X.waitPath sender ∉ ws.returnedResults := by
    rw [h.returned, List.mem_map]
    rintro ⟨t, ht, heq⟩
    obtain rfl := X.waitPath_injective heq
    exact disjoint_of_nodup_append h.nodup ht (mem_map_of_mem hready)
  obtain ⟨k, hresults, hcompl, hk⟩ := h.results
  have hk0 : k = 0 := by
    by_contra hpos
    exact hne (hk (Nat.pos_of_ne_zero hpos)).1
  subst hk0
  have hlen : ws.fileHandles.length ≤ got.length := by
    have hle := h.handles.length_eq
    rw [length_take] at hle
    omega
  refine ⟨fun hnone => absurd hnone hwritten, h.written, ?_, ?_, ?_, ?_, ⟨0, ?_, hcompl, ?_⟩, ?_, ?_, ?_, h.notifying⟩
  · intro _
    have hperm := h.group hwritten
    rw [hpend] at hperm
    refine List.Perm.trans ?_ hperm
    simp only [ExchangeS3.returnResult, map_append, map_cons, append_assoc, singleton_append]
    exact List.Perm.append_left got perm_middle.symm
  · show (if X.waitPath sender ∈ ws.returnedResults then ws.returnedResults
      else ws.returnedResults ++ [X.waitPath sender]) = _
    rw [if_neg hnew, h.returned, map_append, map_singleton]
  · rintro t ht
    refine h.visible t ?_
    rcases ht with ht | ht
    · rcases mem_append.mp ht with ht | ht
      · exact .inl ht
      · rw [mem_singleton.mp ht]; exact .inr hready
    · right
      rw [hpend]
      rcases mem_append.mp ht with ht | ht <;> simp [ht]
  · intro hcalling
    simp [ExchangeS3.returnResult] at hcalling
  · show ws.results ++ [some (X.descriptor w sender)] = _
    rw [hresults]
    simp
  · intro hpos
    exact absurd hpos (lt_irrefl 0)
  · show ws.fileInfos ++ [_] = ((got ++ [sender]).drop ws.fileHandles.length).map _
    rw [h.infos, drop_append_of_le_length hlen, map_append]
    rfl
  · show List.Forall₂ _ ((got ++ [sender]).take ws.fileHandles.length) ws.fileHandles
    rw [take_append_of_le_length hlen]
    exact h.handles
  · intro hpre
    have hdone := hcompl.mp (h.prefetched hpre).1
    exact absurd hdone (lt_irrefl 0)

/-- Opening the next file moves it from the queue of descriptors to the handles. -/
theorem WorkerInv.fetch
    (hfiles : ∀ sender file, files (X.waitPath sender) = some file →
      X.consumeUpstream sender = some file)
    {info : String × RowGroupRange} (hinfo : ws.fileInfos.head? = some info)
    (hfile : files info.1 = some file) :
    X.WorkerInv files w { ws with
      fileInfos := ws.fileInfos.tail
      fileHandles := ws.fileHandles ++ [⟨info.1, file, info.2⟩] } got := by
  obtain ⟨rest, hinfos⟩ := head?_eq_some_iff.mp hinfo
  obtain ⟨sender, tail, hgot, rfl, hrest⟩ := map_eq_cons_iff.mp (h.infos.symm.trans hinfos)
  have hwritten : ws.written ≠ none :=
    h.written_ne_none (.inr (.inr (.inl (hinfos ▸ cons_ne_nil _ _))))
  refine { h with
    initial := fun hnone => absurd hnone hwritten, infos := ?_, handles := ?_, prefetched := ?_ }
  · show ws.fileInfos.tail = (got.drop (ws.fileHandles ++ [_]).length).map _
    rw [length_append, length_singleton, ← drop_drop, hgot, drop_one, tail_cons, hrest, hinfos,
      tail_cons]
  · show List.Forall₂ _ (got.take (ws.fileHandles ++ [_]).length) (ws.fileHandles ++ [_])
    have hget : got[ws.fileHandles.length]? = some sender := by
      rw [← head?_drop, hgot, head?_cons]
    rw [length_append, length_singleton, take_add_one, hget]
    exact rel_append h.handles (.cons ⟨rfl, hfiles sender file hfile, rfl⟩ .nil)
  · intro hpre
    exact absurd (hinfos.symm.trans (h.prefetched hpre).2) (cons_ne_nil _ _)

/-- The invariant does not depend on where the metadata fetcher is. -/
theorem WorkerInv.setFetcher (fetcher : MetadataFetcher) (notifying : Bool)
    (hnotifying : notifying = true → ws.hasUpstreamCompleted = true) :
    X.WorkerInv files w { ws with fetcher := fetcher, notifying := notifying } got := by
  refine { h with initial := fun hnone => ?_, notifying := hnotifying }
  obtain ⟨⟨_, rfl⟩, rfl⟩ := h.initial hnone
  cases notifying with
  | true => cases hnotifying rfl
  | false => exact ⟨⟨fetcher, rfl⟩, rfl⟩

theorem WorkerInv.mono {files' : String → Option (ParquetFile ρ κ)}
    (hmono : ∀ path, (files path).isSome → (files' path).isSome) :
    X.WorkerInv files' w ws got :=
  { h with visible := fun sender hs => hmono _ (h.visible sender hs) }

end

/-- Every action keeps the invariant of the worker. -/
theorem WorkerInv.act (hX : X.Valid) (hw : w < X.numWorkers) (h : X.WorkerInv files w ws got)
    (hfiles : ∀ sender file, files (X.waitPath sender) = some file →
      X.consumeUpstream sender = some file)
    {action : WorkerAction} (hact : X.act files w ws action = some ws') :
    ∃ got, X.WorkerInv files w ws' got := by
  cases action <;> simp only [ExchangeS3.act, ite_none_right_eq_some, map_eq_some_iff,
    bind_eq_bind, bind_eq_some_iff, some.injEq] at hact
  case enter =>
    obtain ⟨-, ws1, henter, rfl⟩ := hact
    exact ⟨got, (h.enterNext hX hw henter).setFetcher ws1.fetcher _ id⟩
  case again => exact ⟨got, h.enterNext hX hw hact.2⟩
  case ready =>
    obtain ⟨⟨hmem, hvisible⟩, rfl⟩ := hact
    exact ⟨got, h.ready hmem hvisible⟩
  case return_ =>
    obtain ⟨-, ⟨sender, rest⟩, htake, rfl⟩ := hact
    exact ⟨got ++ [sender], h.returnResult htake⟩
  case fetch =>
    obtain ⟨-, info, hinfo, file, hfile, rfl⟩ := hact
    exact ⟨got, h.fetch hfiles hinfo hfile⟩
  case complete =>
    obtain ⟨⟨-, hinfos, hcompl, -⟩, rfl⟩ := hact
    have hwritten := h.written_ne_none (.inr (.inr (.inr (.inr hcompl))))
    exact ⟨got, { h with
      initial := fun hnone => absurd hnone hwritten, prefetched := fun _ => ⟨hcompl, hinfos⟩ }⟩
  case test | wait | wake =>
    obtain ⟨-, rfl⟩ := hact
    exact ⟨got, h.setFetcher _ _ h.notifying⟩
  case notify =>
    obtain ⟨-, rfl⟩ := hact
    exact ⟨got, h.setFetcher _ _ fun hfalse => absurd hfalse Bool.false_ne_true⟩

/-- Every event keeps the invariant. -/
theorem Inv.step (hX : X.Valid) {s' : ExchangeState ρ κ} {e : ExchangeEvent} (h : X.Inv s)
    (hstep : X.step s e = some s') : X.Inv s' := by
  cases e <;> rw [ExchangeS3.step, ite_none_right_eq_some, map_eq_some_iff] at hstep
  case publish w =>
    obtain ⟨⟨hw, -⟩, file, hwritten, rfl⟩ := hstep
    obtain ⟨got, hgot⟩ := h.workers w hw
    refine ⟨fun v hv => ?_, fun sender file' hfile' => ?_⟩
    · obtain ⟨gotv, hgotv⟩ := h.workers v hv
      refine ⟨gotv, hgotv.mono fun path hpath => ?_⟩
      by_cases hp : path = X.writePath w
      · simp [hp]
      · simpa [update_of_ne hp] using hpath
    · dsimp only at hfile'
      by_cases hsender : sender = w
      · subst hsender
        rw [X.writePath_eq_waitPath, update_self] at hfile'
        exact hgot.written _ (hwritten.trans hfile')
      · refine h.files sender file' ?_
        rwa [X.writePath_eq_waitPath, update_of_ne (X.waitPath_injective.ne hsender)] at hfile'
  case act w action =>
    obtain ⟨hw, ws, hact, rfl⟩ := hstep
    refine ⟨forall_setWorker (P := fun v ws => ∃ got, X.WorkerInv s.files v ws got) h.workers
      fun _ => ?_, h.files⟩
    obtain ⟨got, hgot⟩ := h.workers w hw
    exact hgot.act hX hw h.files hact

theorem Inv.trace (hX : X.Valid) {es : List ExchangeEvent} (h : Trace X.system es s) : X.Inv s :=
  h.invariant X.inv_init fun hinv hstep => hinv.step hX hstep

/-! ### The scan -/

theorem sliceIndex_eq {p : ℕ} (hp : (X.groupMembers w)[p]? = some w) : X.sliceIndex w = p := by
  have hslice := X.getElem?_sliceIndex (mem_of_getElem? hp)
  have hlt : X.sliceIndex w < (X.groupMembers w).length := (List.getElem?_eq_some_iff.mp hslice).1
  exact (getElem?_inj hlt (nodup_computeGroupMembers _ _ _ _)).mp (hslice.trans hp.symm)

section Scan

variable [LE κ] [DecidableLE κ]

/-- Of the file of a group member, worker `w` reads the row group with its own index. -/
theorem handleRowGroups_isHandle {columnInfos : List (ColumnInfo κ)}
    (hinfos : ∀ info ∈ columnInfos, info.rangePredicates = []) {p sender : ℕ}
    (hp : (X.groupMembers w)[p]? = some w) (hsender : sender ∈ X.groupMembers w)
    {handle : ParquetFileHandle ρ κ} (h : X.IsHandle w sender handle) :
    (handleRowGroups columnInfos handle).flatMap RowGroup.rows = X.rowsFor sender p := by
  obtain ⟨path, file, range⟩ := handle
  obtain ⟨-, hfile, rfl⟩ := h
  -- sender and receiver are in one group, so they agree on the number of row groups
  have hsize : file.rowGroups.length = X.groupSize w := by
    have hgrp : X.groupMembers sender = X.groupMembers w := computeGroupMembers_eq_of_mem hsender
    rw [X.rowGroups_eq hfile, length_map, length_range]
    exact congrArg List.length hgrp
  have hlt : p < file.rowGroups.length := by
    rw [hsize]
    exact (List.getElem?_eq_some_iff.mp hp).1
  rw [rangeOf, sliceIndex_eq hp, ← hsize, handleRowGroups_slice hinfos path file hlt,
    flatMap_singleton]
  rw [getElem_of_eq (X.rowGroups_eq hfile), getElem_map, getElem_range, rows_rowGroup]

/-- The rows of the files that have been opened, in the slice of the worker. -/
theorem rows_fileHandles (width : ℕ) {p : ℕ} (hp : (X.groupMembers w)[p]? = some w)
    (h : X.WorkerInv files w ws got) :
    (ws.fileHandles.flatMap fun handle =>
      (handleRowGroups (columnInfos width) handle).flatMap RowGroup.rows) =
        (got.take ws.fileHandles.length).flatMap fun sender => X.rowsFor sender p := by
  have hgot : ∀ sender ∈ got.take ws.fileHandles.length, sender ∈ X.groupMembers w := by
    intro sender hsender
    have hmem := mem_of_mem_take hsender
    have hwritten : ws.written ≠ none := h.written_ne_none (.inr (.inl (ne_nil_of_mem hmem)))
    exact (h.group hwritten).mem_iff.mp (mem_append_left _ hmem)
  have hhandles := h.handles
  revert hgot hhandles
  generalize got.take ws.fileHandles.length = senders
  generalize ws.fileHandles = handles
  intro hgot hhandles
  induction hhandles with
  | nil => rfl
  | @cons sender handle senders handles hhandle _ ih =>
    rw [flatMap_cons, flatMap_cons, ih fun t ht => hgot t (mem_cons_of_mem sender ht),
      handleRowGroups_isHandle (by simp [columnInfos]) hp (hgot sender mem_cons_self) hhandle]

/-- With the prefetching completed, the scan returns what all senders put under the worker's index. -/
theorem scan_firstDrain (width : ℕ) {p : ℕ} (hp : (X.groupMembers w)[p]? = some w)
    (h : X.WorkerInv files w ws got) (hpre : ws.hasPrefetchingCompleted = true) :
    ∃ batches, Returns (scan width ws).firstDrain batches ∧
      batches.flatten = got.flatMap fun sender => X.rowsFor sender p := by
  have hinfos := (h.prefetched hpre).2
  rw [h.infos, map_eq_nil_iff, drop_eq_nil_iff] at hinfos
  refine ⟨scanBatches (columnInfos width) ws.fileHandles, ?_, ?_⟩
  · rw [scan, hpre]
    exact parquetScan_firstDrain _ (parquetFileReplay ws.fileHandles)
  · rw [flatten_scanBatches, rows_fileHandles width hp h, take_of_length_le hinfos]

end Scan

theorem flatMap_indicator {l : List ℕ} (hnd : l.Nodup) {id : ℕ} (hid : id ∈ l) (rows : List ρ) :
    (l.flatMap fun p => if p = id then rows else []) = rows := by
  induction l with
  | nil => simp at hid
  | cons p l ih =>
    obtain ⟨hp, hl⟩ := nodup_cons.mp hnd
    rw [flatMap_cons]
    by_cases hpid : p = id
    · subst hpid
      have hrest : (l.flatMap fun q => if q = p then rows else []) = [] := by
        refine flatMap_eq_nil_iff.mpr fun q hq => if_neg ?_
        rintro rfl
        exact hp hq
      rw [if_pos rfl, hrest, append_nil]
    · rw [if_neg hpid, nil_append]
      exact ih hl (mem_of_ne_of_mem (Ne.symm hpid) hid)

/-- Every row of a sender is under one of the partition ids of its group. -/
theorem Valid.rowsFor_perm (hX : X.Valid) (hw : w < X.numWorkers) :
    ((range (X.groupSize w)).flatMap (X.rowsFor w)).Perm ((X.upstream w).flatMap Prod.snd) := by
  have hids := hX.partition_lt w hw
  unfold rowsFor
  revert hids
  induction X.upstream w with
  | nil => intro _; simp
  | cons batch rest ih =>
    intro hids
    obtain ⟨hlo, hhi⟩ := hids batch mem_cons_self
    obtain ⟨id, hid⟩ := Int.eq_ofNat_of_zero_le hlo
    -- the first batch goes to its own partition, the others stay as they are
    have hsplit : ∀ p : ℕ, ((batch :: rest).filter fun b => b.1 = (p : ℤ)).flatMap Prod.snd =
        (if p = id then batch.2 else []) ++
          (rest.filter fun b => b.1 = (p : ℤ)).flatMap Prod.snd := by
      intro p
      by_cases hp : p = id
      · rw [if_pos hp, filter_cons_of_pos (by simp [hid, hp]), flatMap_cons]
      · rw [if_neg hp, nil_append, filter_cons_of_neg]
        simpa [hid] using fun h : id = p => hp h.symm
    rw [flatMap_congr fun p _ => hsplit p, flatMap_cons]
    refine (flatMap_append_perm _ _ _).symm.trans ?_
    rw [flatMap_indicator nodup_range (mem_range.mpr (by omega))]
    exact List.Perm.append_left _ (ih fun b hb => hids b (mem_cons_of_mem batch hb))

/-! ### Progress -/

/-- All actions but a call after the end of the stream and a wake-up without a notification. -/
def isProductive : WorkerAction → Bool
  | .again | .wake => false
  | _ => true

def productive : ExchangeEvent → Bool
  | .publish _ => true
  | .act _ action => isProductive action

def isWake : ExchangeEvent → Bool
  | .act _ .wake => true
  | _ => false

/-- The notification of the end of the stream is not lost. -/
def Heard (s : ExchangeState ρ κ) : ExchangeEvent → Prop
  | .act w .notify => (s.workers w).fetcher ≠ .deciding
  | _ => True

instance (s : ExchangeState ρ κ) : ∀ e, Decidable (Heard s e)
  | .act w .notify => inferInstanceAs (Decidable ((s.workers w).fetcher ≠ .deciding))
  | .publish _ | .act _ .enter | .act _ .again | .act _ (.ready _) | .act _ .return_
  | .act _ .fetch | .act _ .complete | .act _ .test | .act _ .wait | .act _ .wake => .isTrue trivial

/-- A metadata fetcher that has not seen the end of the stream will be notified of it. -/
def Woken (ws : ExchangeWorker ρ κ) : Prop :=
  ws.fetcher ≠ .testing → ws.hasUpstreamCompleted = true → ws.notifying = true

/-- A call is always possible, and changes neither the metadata fetcher nor whether it will be
    notified. -/
theorem exists_enterNext (hX : X.Valid) (hw : w < X.numWorkers) (ws : ExchangeWorker ρ κ) :
    ∃ ws', X.enterNext w ws = some ws' ∧ ws'.fetcher = ws.fetcher ∧ ws'.notifying = ws.notifying := by
  obtain ⟨file, hfile⟩ := hX.consumeUpstream hw
  unfold enterNext
  rw [hfile]
  by_cases hfirst : ws.pendingResults = [] ∧ ws.returnedResults = []
  · rw [if_pos hfirst]
    simp only [map_some, bind_eq_bind, bind_some]
    split <;> exact ⟨_, rfl, rfl, rfl⟩
  · rw [if_neg hfirst]
    simp only [bind_eq_bind, bind_some]
    split <;> exact ⟨_, rfl, rfl, rfl⟩

theorem notified_eq {fetcher : MetadataFetcher} (h : fetcher ≠ .deciding) :
    fetcher.notified = .testing := by
  cases fetcher with
  | deciding => exact absurd rfl h
  | testing | waiting => rfl

/-- If no notification is lost, a metadata fetcher does not wait in vain. -/
theorem Woken.act (hX : X.Valid) (hw : w < X.numWorkers) {action : WorkerAction} (h : Woken ws)
    (hheard : action = .notify → ws.fetcher ≠ .deciding)
    (hact : X.act files w ws action = some ws') : Woken ws' := by
  cases action <;> simp only [ExchangeS3.act, ite_none_right_eq_some, map_eq_some_iff,
    bind_eq_bind, bind_eq_some_iff, some.injEq] at hact
  case enter =>
    obtain ⟨-, ws1, -, rfl⟩ := hact
    exact fun _ hdone => hdone
  case again =>
    obtain ⟨⟨-, hdone⟩, henter⟩ := hact
    obtain ⟨_, henter', hfetcher, hnotifying⟩ := exists_enterNext hX hw ws
    cases henter'.symm.trans henter
    intro hne _
    rw [hnotifying]
    exact h (hfetcher ▸ hne) hdone
  case ready =>
    obtain ⟨-, rfl⟩ := hact
    exact h
  case return_ =>
    obtain ⟨⟨-, hfree⟩, r, -, rfl⟩ := hact
    exact fun hne => absurd (notified_eq hfree) hne
  case fetch =>
    obtain ⟨htesting, info, -, file, -, rfl⟩ := hact
    exact fun hne => absurd htesting hne
  case complete =>
    obtain ⟨⟨htesting, -⟩, rfl⟩ := hact
    exact fun hne => absurd htesting hne
  case test =>
    obtain ⟨⟨-, -, hopen⟩, rfl⟩ := hact
    exact fun _ hdone => absurd (hopen.symm.trans hdone) Bool.false_ne_true
  case wait =>
    obtain ⟨hdeciding, rfl⟩ := hact
    exact fun _ => h (by simp [hdeciding])
  case notify =>
    obtain ⟨-, rfl⟩ := hact
    exact fun hne => absurd (notified_eq (hheard rfl)) hne
  case wake =>
    obtain ⟨-, rfl⟩ := hact
    exact fun hne => absurd rfl hne

theorem woken_of_trace (hX : X.Valid) {es : List ExchangeEvent} (h : GuardedTrace X.system Heard es s) (w : ℕ) :
    Woken (s.workers w) := by
  refine h.invariant (I := fun s => ∀ w, True → Woken (s.workers w)) (fun _ _ hne => absurd rfl hne)
    (fun {s e s'} hwoken hheard hstep => ?_) w trivial
  replace hstep : X.step s e = some s' := hstep
  cases e <;> rw [ExchangeS3.step, ite_none_right_eq_some, map_eq_some_iff] at hstep
  case publish w =>
    obtain ⟨-, file, -, rfl⟩ := hstep
    exact hwoken
  case act w action =>
    obtain ⟨hw, ws, hact, rfl⟩ := hstep
    refine forall_setWorker hwoken fun _ => (hwoken w trivial).act hX hw ?_ hact
    rintro rfl
    exact hheard

/-- **The exchange does not get stuck** if no notification is lost.  When no productive event is
    enabled, all workers have returned all their files and all scans have been given them. -/
theorem Inv.completed (hX : X.Valid) (h : X.Inv s) (hwoken : Woken (s.workers w))
    (hquiet : Quiescent X.system productive s) (hw : w < X.numWorkers) :
    (s.workers w).hasUpstreamCompleted = true ∧ (s.workers w).hasPrefetchingCompleted = true := by
  have hact : ∀ v < X.numWorkers, ∀ action, isProductive action = true →
      X.act s.files v (s.workers v) action = none := by
    intro v hv action haction
    have hnone : X.step s (.act v action) = none := hquiet (.act v action) haction
    rwa [ExchangeS3.step, if_pos hv, map_eq_none_iff] at hnone
  -- a worker that is not in a call has seen the end of the stream: otherwise it could call again
  have henter : ∀ v < X.numWorkers, (s.workers v).calling = false →
      (s.workers v).hasUpstreamCompleted = true := by
    intro v hv hcalling
    by_contra hcompl
    have hnone := hact v hv .enter rfl
    obtain ⟨ws, hws, -⟩ := exists_enterNext hX hv (s.workers v)
    rw [ExchangeS3.act, if_pos ⟨hcalling, by simpa using hcompl⟩, hws] at hnone
    cases hnone
  have hwritten : ∀ v < X.numWorkers, (s.workers v).written ≠ none := by
    intro v hv hnone
    obtain ⟨got, hgot⟩ := h.workers v hv
    obtain ⟨⟨fetcher, hinit⟩, -⟩ := hgot.initial hnone
    have hcompl := henter v hv (by rw [hinit]; rfl)
    exact hgot.written_ne_none (.inr (.inr (.inr (.inr hcompl)))) hnone
  have hvisible : ∀ v < X.numWorkers, (s.files (X.waitPath v)).isSome := by
    intro v hv
    by_contra hfile
    have hnone : X.step s (.publish v) = none := hquiet (.publish v) rfl
    rw [ExchangeS3.step, if_pos ⟨hv, by rw [writePath_eq_waitPath]; simpa using hfile⟩,
      map_eq_none_iff] at hnone
    exact hwritten v hv hnone
  obtain ⟨got, hgot⟩ := h.workers w hw
  have hmember : ∀ sender, sender ∈ got ∨ sender ∈ (s.workers w).pendingResults.map Prod.fst →
      sender < X.numWorkers := by
    intro sender hsender
    have hmem := (hgot.group (hwritten w hw)).mem_iff.mp (mem_append.mpr hsender)
    exact lt_of_mem_computeGroupMembers hmem
  replace hact := hact w hw
  have hready : ∀ r ∈ (s.workers w).pendingResults, r.2 = true := by
    rintro ⟨sender, ready⟩ hr
    by_contra hfalse
    obtain rfl : ready = false := by simpa using hfalse
    have hsome := hvisible sender (hmember sender (.inr (mem_map_of_mem hr)))
    exact absurd (hact (.ready sender) rfl) (by simp [ExchangeS3.act, hr, hsome])
  have hfree : (s.workers w).fetcher ≠ .deciding := fun hdeciding =>
    absurd (hact .wait rfl) (by simp [ExchangeS3.act, hdeciding])
  have hcalling : (s.workers w).calling = false := by
    by_contra hcalling
    rw [Bool.not_eq_false] at hcalling
    obtain ⟨⟨sender, ready⟩, hr⟩ := exists_mem_of_ne_nil _ (hgot.calling hcalling)
    obtain rfl : ready = true := hready _ hr
    have hnone := hact .return_ rfl
    rw [ExchangeS3.act, if_pos ⟨hcalling, hfree⟩, map_eq_none_iff] at hnone
    exact absurd hnone (isSome_iff_ne_none.mp (takeReady_isSome hr))
  have hcompl := henter w hw hcalling
  refine ⟨hcompl, ?_⟩
  -- a fetcher that still waited would be notified
  have htesting : (s.workers w).fetcher = .testing := by
    by_contra hne
    exact absurd (hact .notify rfl) (by simp [ExchangeS3.act, hwoken hne hcompl])
  have hinfos : (s.workers w).fileInfos = [] := by
    by_contra hne
    obtain ⟨info, rest, hcons⟩ := exists_cons_of_ne_nil hne
    obtain ⟨sender, tail, hdrop, rfl, -⟩ := map_eq_cons_iff.mp (hgot.infos.symm.trans hcons)
    have hsender : sender ∈ got := mem_of_mem_drop (hdrop ▸ mem_cons_self)
    obtain ⟨file, hfile⟩ := isSome_iff_exists.mp (hvisible sender (hmember sender (.inl hsender)))
    exact absurd (hact .fetch rfl) (by simp [ExchangeS3.act, htesting, hcons, hfile])
  by_contra hpre
  exact absurd (hact .complete rfl)
    (by simp [ExchangeS3.act, htesting, hinfos, hcompl, hpre])

/-! ### Termination -/

variable (X)

/-- The futures that are, or will be, waited for. -/
def outstanding (w : ℕ) (ws : ExchangeWorker ρ κ) : List (ℕ × Bool) :=
  if ws.written.isNone then (X.groupMembers w).map fun sender => (sender, false)
  else ws.pendingResults

/-- How often the metadata fetcher goes on without being notified. -/
def fetcherMeasure : MetadataFetcher → ℕ
  | .testing => 2
  | .deciding => 1
  | .waiting => 0

theorem fetcherMeasure_notified (fetcher : MetadataFetcher) :
    fetcherMeasure fetcher.notified ≤ fetcherMeasure fetcher + 2 := by
  cases fetcher <;> decide

/-- How many productive events worker `w` can still take part in: calls, results, futures that become
    ready, files that are opened, what happens once, and the tests and waits of the metadata fetcher,
    which the results and the end of the stream wake up. -/
def workerMeasure (files : String → Option (ParquetFile ρ κ)) (w : ℕ) (ws : ExchangeWorker ρ κ) : ℕ :=
  (bif ws.hasUpstreamCompleted then 3 * ws.notifying.toNat
    else (X.outstanding w ws).length + 1 - ws.calling.toNat + 3) +
  3 * (X.outstanding w ws).length + fetcherMeasure ws.fetcher +
  (X.outstanding w ws).countP (fun r => !r.2) +
  ((X.outstanding w ws).length + ws.fileInfos.length) +
  (!ws.hasPrefetchingCompleted).toNat + (files (X.waitPath w)).isNone.toNat

def measure (s : ExchangeState ρ κ) : ℕ := ∑ w ∈ Finset.range X.numWorkers, X.workerMeasure s.files w (s.workers w)

variable {X}

/-- The measure changes as that of the worker with which something happens. -/
theorem measure_le {s' : ExchangeState ρ κ} (hw : w < X.numWorkers) {d c : ℕ}
    (hother : ∀ v ≠ w, X.workerMeasure s'.files v (s'.workers v) = X.workerMeasure s.files v (s.workers v))
    (hle : X.workerMeasure s'.files w (s'.workers w) + d ≤ X.workerMeasure s.files w (s.workers w) + c) :
    X.measure s' + d ≤ X.measure s + c := by
  have hmem := Finset.mem_range.mpr hw
  unfold measure
  rw [← Finset.add_sum_erase _ _ hmem, ← Finset.add_sum_erase _ _ hmem,
    Finset.sum_congr rfl fun v hv => hother v (Finset.ne_of_mem_erase hv)]
  omega

theorem workerMeasure_enter (hX : X.Valid) (hw : w < X.numWorkers)
    (h : X.WorkerInv files w ws got) (hcalling : ws.calling = false)
    (hopen : ws.hasUpstreamCompleted = false) (henter : X.enterNext w ws = some ws') :
    X.workerMeasure files w { ws' with notifying := ws'.hasUpstreamCompleted } + 1 ≤
      X.workerMeasure files w ws := by
  obtain ⟨hnone, file, hfile, rfl⟩ | ⟨hwritten, hpend, rfl⟩ | ⟨hwritten, hpend, rfl⟩ :=
    enterNext_cases hX hw h henter
  · obtain ⟨⟨_, rfl⟩, rfl⟩ := h.initial hnone
    simp [workerMeasure, outstanding, ExchangeWorker.initial]
  · simp [workerMeasure, outstanding, hpend, hwritten, hcalling, hopen]
  · simp [workerMeasure, outstanding, hwritten, hcalling, hopen]

/-- Calls after the end of the stream leave the measure alone. -/
theorem workerMeasure_again (hX : X.Valid) (hw : w < X.numWorkers) (h : X.WorkerInv files w ws got)
    (hdone : ws.hasUpstreamCompleted = true) (henter : X.enterNext w ws = some ws') :
    X.workerMeasure files w ws' = X.workerMeasure files w ws := by
  obtain ⟨k, -, hiff, hk⟩ := h.results
  obtain ⟨hnil, hcalled⟩ := hk (hiff.mp hdone)
  obtain ⟨hnone, -⟩ | ⟨-, -, rfl⟩ | ⟨-, hpend, -⟩ := enterNext_cases hX hw h henter
  · exact absurd hnone hcalled
  · simp [workerMeasure, outstanding, hdone]
  · exact absurd hnil hpend

theorem countP_ready (h : (sender, false) ∈ l) :
    (l.map fun r => if r.1 = sender then (sender, true) else r).countP (fun r => !r.2) + 1 ≤
      l.countP (fun r => !r.2) := by
  have hle (l : List (ℕ × Bool)) : (l.map fun r => if r.1 = sender then (sender, true) else r).countP
      (fun r => !r.2) ≤ l.countP fun r => !r.2 := by
    rw [countP_map]
    refine countP_mono_left fun q _ hq => ?_
    rw [comp_apply] at hq
    split at hq
    · simp at hq
    · exact hq
  obtain ⟨pre, post, rfl⟩ := append_of_mem h
  have hpre := hle pre
  have hpost := hle post
  simp only [map_append, map_cons, countP_append, countP_cons, if_true, Bool.not_true, Bool.not_false,
    Bool.false_eq_true, if_false]
  omega

theorem workerMeasure_ready (h : X.WorkerInv files w ws got) (hmem : (sender, false) ∈ ws.pendingResults) :
    X.workerMeasure files w { ws with pendingResults := ws.pendingResults.map fun r =>
      if r.1 = sender then (sender, true) else r } + 1 ≤ X.workerMeasure files w ws := by
  have hwritten := h.written_ne_none (.inl (ne_nil_of_mem hmem))
  rw [← isSome_iff_ne_none, ← not_isNone, Bool.not_eq_true'] at hwritten
  have hcount := countP_ready hmem
  simp only [workerMeasure, outstanding, hwritten, Bool.false_eq_true, if_false, length_map]
  omega

theorem workerMeasure_returnResult (h : X.WorkerInv files w ws got) (hcalling : ws.calling = true)
    (htake : takeReady ws.pendingResults = some (sender, rest)) :
    X.workerMeasure files w (X.returnResult w sender rest ws) + 1 ≤ X.workerMeasure files w ws := by
  have hwritten := h.written_ne_none (.inr (.inr (.inr (.inl hcalling))))
  rw [← isSome_iff_ne_none, ← not_isNone, Bool.not_eq_true'] at hwritten
  obtain ⟨pre, post, hpend, rfl⟩ := takeReady_eq_some htake
  simp only [workerMeasure, outstanding, ExchangeS3.returnResult, hwritten, hpend, hcalling,
    Bool.false_eq_true, if_false, length_append, length_cons, length_nil,
    countP_append, countP_cons, Bool.not_true, Bool.toNat_true, Bool.toNat_false]
  have hfetcher := fetcherMeasure_notified ws.fetcher
  cases ws.hasUpstreamCompleted <;> simp only [cond_true, cond_false] <;> omega

/-- Every productive action decreases the measure, and only a wake-up increases it. -/
theorem WorkerInv.measure_act (hX : X.Valid) (hw : w < X.numWorkers)
    (h : X.WorkerInv files w ws got) {action : WorkerAction}
    (hact : X.act files w ws action = some ws') :
    X.workerMeasure files w ws' + (if isProductive action then 1 else 0) ≤
      X.workerMeasure files w ws + (if isWake (.act w action) then 2 else 0) := by
  cases action <;> simp only [ExchangeS3.act, ite_none_right_eq_some, map_eq_some_iff,
    bind_eq_bind, bind_eq_some_iff, some.injEq] at hact <;>
    simp only [isProductive, isWake, if_true, Bool.false_eq_true, if_false]
  case enter =>
    obtain ⟨⟨hcalling, hopen⟩, ws1, henter, rfl⟩ := hact
    exact workerMeasure_enter hX hw h hcalling hopen henter
  case again => exact (workerMeasure_again hX hw h hact.1.2 hact.2).le
  case ready =>
    obtain ⟨⟨hmem, -⟩, rfl⟩ := hact
    exact workerMeasure_ready h hmem
  case return_ =>
    obtain ⟨⟨hcalling, -⟩, ⟨sender, rest⟩, htake, rfl⟩ := hact
    exact workerMeasure_returnResult h hcalling htake
  case fetch =>
    obtain ⟨-, info, hinfo, file, -, rfl⟩ := hact
    obtain ⟨rest, hinfos⟩ := head?_eq_some_iff.mp hinfo
    simp only [workerMeasure, outstanding, hinfos, length_cons, tail_cons]
    omega
  case complete =>
    obtain ⟨⟨-, -, -, hpre⟩, rfl⟩ := hact
    simp only [workerMeasure, outstanding, hpre, Bool.not_true, Bool.not_false, Bool.toNat_true,
      Bool.toNat_false]
    omega
  case test =>
    obtain ⟨⟨htesting, -⟩, rfl⟩ := hact
    simp only [workerMeasure, outstanding, htesting, fetcherMeasure]
    omega
  case wait =>
    obtain ⟨hdeciding, rfl⟩ := hact
    simp only [workerMeasure, outstanding, hdeciding, fetcherMeasure]
    omega
  case notify =>
    obtain ⟨hnotifying, rfl⟩ := hact
    have hfetcher := fetcherMeasure_notified ws.fetcher
    simp only [workerMeasure, outstanding, hnotifying, h.notifying hnotifying, Bool.toNat_true,
      Bool.toNat_false, cond_true]
    omega
  case wake =>
    obtain ⟨hwaiting, rfl⟩ := hact
    simp only [workerMeasure, outstanding, hwaiting, fetcherMeasure]
    omega

/-- Every productive event decreases the measure, and only a wake-up increases it. -/
theorem Inv.measure_step (hX : X.Valid) {s' : ExchangeState ρ κ} {e : ExchangeEvent} (h : X.Inv s)
    (hstep : X.step s e = some s') :
    X.measure s' + (if productive e then 1 else 0) ≤ X.measure s + (if isWake e then 2 else 0) := by
  cases e <;> rw [ExchangeS3.step, ite_none_right_eq_some, map_eq_some_iff] at hstep
  case publish w =>
    obtain ⟨⟨hw, hfile⟩, file, -, rfl⟩ := hstep
    rw [writePath_eq_waitPath] at hfile
    refine measure_le hw (fun v hv => ?_) ?_
    · dsimp only
      rw [workerMeasure, workerMeasure, writePath_eq_waitPath, update_of_ne (X.waitPath_injective.ne hv)]
    · simp only [workerMeasure, writePath_eq_waitPath, update_self, hfile,
        isNone_some, isNone_none, productive, isWake, if_true, Bool.false_eq_true, if_false,
        Bool.toNat_true, Bool.toNat_false]
      omega
  case act w action =>
    obtain ⟨hw, ws, hact, rfl⟩ := hstep
    obtain ⟨got, hgot⟩ := h.workers w hw
    refine measure_le hw (fun v hv => ?_) ?_
    · rw [setWorker_of_ne s hv]
      rfl
    · rw [setWorker_self]
      exact hgot.measure_act hX hw hact

/-! ### The contract -/

variable (X)

/-- What worker `w`, with index `p` in its group, has delivered: `next` returned the descriptors of
    the files of `senders`, and after the last one only the end of the stream; the files that have
    been opened hold, for the worker, the rows that the first of these senders put under `p`; and with
    the prefetching completed, the scan returns the rows that all of them put there. -/
structure Delivers [LE κ] [DecidableLE κ] (width w p : ℕ) (ws : ExchangeWorker ρ κ)
    (senders : List ℕ) : Prop where
  nodup : senders.Nodup
  members : senders ⊆ X.groupMembers w
  results : ∃ k, ws.results =
      senders.map (fun sender => some ⟨X.waitPath sender, p, p + 1, X.groupSize w⟩) ++
        replicate k none ∧ (0 < k ↔ ws.hasUpstreamCompleted = true)
  complete : ws.hasUpstreamCompleted = true → senders.Perm (X.groupMembers w)
  opened : ∃ read, read <+: senders ∧ (ws.fileHandles.flatMap fun handle =>
      (handleRowGroups (columnInfos width) handle).flatMap RowGroup.rows) =
    read.flatMap fun sender => X.rowsFor sender p
  scanned : ws.hasPrefetchingCompleted = true → ∃ batches,
    Returns (scan width ws).firstDrain batches ∧
      batches.flatten = senders.flatMap fun sender => X.rowsFor sender p

variable {X}

theorem WorkerInv.delivers [LE κ] [DecidableLE κ] (width : ℕ) {p : ℕ}
    (hp : (X.groupMembers w)[p]? = some w) (h : X.WorkerInv files w ws got) :
    X.Delivers width w p ws got := by
  obtain ⟨k, hresults, hcompl, hk⟩ := h.results
  refine ⟨(nodup_append.mp h.nodup).1, ?_, ⟨k, ?_, hcompl.symm⟩, ?_,
    ⟨_, take_prefix _ _, rows_fileHandles width hp h⟩, scan_firstDrain width hp h⟩
  · intro sender hsender
    have hwritten : ws.written ≠ none := h.written_ne_none (.inr (.inl (ne_nil_of_mem hsender)))
    exact (h.group hwritten).mem_iff.mp (mem_append_left _ hsender)
  · rw [hresults]
    simp only [descriptor, sliceIndex_eq hp]
  · intro hdone
    obtain ⟨hpend, hwritten⟩ := hk (hcompl.mp hdone)
    have hgrp := h.group hwritten
    rwa [hpend, map_nil, append_nil] at hgrp

/-- **The S3 exchange neither loses nor duplicates rows.**  Every row of a sender is under exactly one
    partition id of its group.  In every trace, every worker delivers, and there are at most `N` events
    other than calls after the end of the stream, and two more for each wake-up without a notification.
    When none of these events is left and no notification was lost, `next` has returned one descriptor
    per group member and then the end of the stream, and the scan returns, for every member of the
    group, the rows that it put under the worker's index. -/
theorem exchangeS3_delivers [LE κ] [DecidableLE κ] (X : ExchangeS3 ρ κ) (hX : X.Valid) (width : ℕ) :
    (∀ w < X.numWorkers,
      ((range (X.groupSize w)).flatMap (X.rowsFor w)).Perm ((X.upstream w).flatMap Prod.snd)) ∧
    (∃ N, ∀ es s, Trace X.system es s → es.countP productive ≤ N + es.countP isWake * 2) ∧
    ∀ w < X.numWorkers, ∀ p, (X.groupMembers w)[p]? = some w →
      (∀ es s, Trace X.system es s → ∃ senders, X.Delivers width w p (s.workers w) senders) ∧
      ∀ es s, GuardedTrace X.system Heard es s → Quiescent X.system productive s →
        ∃ senders, X.Delivers width w p (s.workers w) senders ∧ senders.Perm (X.groupMembers w) ∧
          (s.workers w).hasUpstreamCompleted = true ∧
          ∃ batches, Returns (scan width (s.workers w)).firstDrain batches ∧
            batches.flatten.Perm ((X.groupMembers w).flatMap fun sender => X.rowsFor sender p) := by
  refine ⟨fun w hw => hX.rowsFor_perm hw, ⟨X.measure X.system.init, fun es s htrace => ?_⟩, ?_⟩
  · have hle := htrace.count_le (p := productive) (q := isWake) X.measure X.inv_init
      (fun h hs => h.step hX hs) fun h hs => h.measure_step hX hs
    omega
  intro w hw p hp
  have hdelivers : ∀ es s, Trace X.system es s →
      ∃ senders, X.Delivers width w p (s.workers w) senders := fun es s htrace => by
    obtain ⟨got, hgot⟩ := (Inv.trace hX htrace).workers w hw
    exact ⟨got, hgot.delivers width hp⟩
  refine ⟨hdelivers, fun es s htrace hquiet => ?_⟩
  obtain ⟨hdone, hpre⟩ :=
    (Inv.trace hX htrace.trace).completed hX (woken_of_trace hX htrace w) hquiet hw
  obtain ⟨senders, hsenders⟩ := hdelivers es s htrace.trace
  have hperm := hsenders.complete hdone
  obtain ⟨batches, hrets, hrows⟩ := hsenders.scanned hpre
  refine ⟨senders, hsenders, hperm, hdone, batches, hrets, ?_⟩
  rw [hrows]
  exact hperm.flatMap_right _

/-! ### Two workers -/

/-- No productive event of a worker is enabled. -/
def quiet (X : ExchangeS3 ρ κ) (s : ExchangeState ρ κ) (w : ℕ) : Bool :=
  ([.enter, .return_, .fetch, .complete, .test, .wait, .notify].all
    fun action => (X.act s.files w (s.workers w) action).isNone) &&
  ((s.workers w).pendingResults.all fun r =>
    (X.act s.files w (s.workers w) (.ready r.1)).isNone) &&
  (X.step s (.publish w)).isNone

theorem quiescent_of_quiet (h : ∀ w < X.numWorkers, quiet X s w) :
    Quiescent X.system productive s := by
  intro e he
  show X.step s e = none
  cases e with
  | publish w =>
    by_cases hw : w < X.numWorkers
    · have hquiet := h w hw
      simp only [quiet, Bool.and_eq_true, isNone_iff_eq_none] at hquiet
      exact hquiet.2
    · exact if_neg fun hall => hw hall.1
  | act w action =>
    rw [ExchangeS3.step, ite_eq_right_iff]
    intro hw
    have hquiet := h w hw
    simp only [quiet, all_cons, all_nil, Bool.and_eq_true, List.all_eq_true,
      isNone_iff_eq_none] at hquiet
    rw [map_eq_none_iff]
    cases action with
    | again | wake => cases he
    | ready sender =>
      by_cases hmem : (sender, false) ∈ (s.workers w).pendingResults
      · exact hquiet.1.2 _ hmem
      · exact if_neg fun hall => hmem hall.1
    | enter | return_ | fetch | complete | test | wait | notify => simp [hquiet]

/-- Two workers in one level, each of which sends a row to both. -/
def sample : ExchangeS3 ℕ ℕ where
  numWorkers := 2
  numLevels := 1
  levelNum := 0
  bucketName := "bucket"
  queryId := 7
  exchangeId := 0
  upstream w := [(0, [10 * w]), (1, [10 * w + 1])]
  statistics rows _ := (rows.headD 0, rows.headD 0)

theorem sample_valid : sample.Valid := by
  have hsize : ∀ w < 2, sample.groupSize w = 2 := by decide +kernel
  refine ⟨.inl ⟨rfl, rfl⟩, fun w hw batch hbatch => ?_, fun w hw => ?_⟩
  · rw [hsize w hw]
    rcases mem_pair.mp hbatch with rfl | rfl <;> simp
  · rw [hsize w hw]
    decide

theorem quiescent_sample {s : ExchangeState ℕ ℕ} (h : (quiet sample s 0 && quiet sample s 1) = true) :
    Quiescent sample.system productive s := by
  obtain ⟨h0, h1⟩ := Bool.and_eq_true_iff.mp h
  refine quiescent_of_quiet fun w hw => ?_
  match w, hw with
  | 0, _ => exact h0
  | 1, _ => exact h1

/-- Both workers write their files, and the scans open them. -/
def sampleOpened : List ExchangeEvent :=
  [.act 0 .enter, .act 1 .enter, .publish 0, .publish 1] ++ [0, 1].flatMap fun w =>
    [.ready 0, .ready 1, .return_, .enter, .return_, .fetch, .fetch].map (.act w)

/-- The last call returns, and the metadata fetcher finds the end of the stream. -/
def sampleFinish (w : ℕ) : List ExchangeEvent := [.enter, .notify, .complete].map (.act w)

theorem exchangeS3_delivers_sample :
    ∃ es s, GuardedTrace sample.system Heard es s ∧ Quiescent sample.system productive s ∧
      ∃ batches, Returns (scan 1 (s.workers 0)).firstDrain batches ∧ batches.flatten.Perm [0, 10] := by
  have hrun : ((sample.system.guarded Heard).run sample.system.init
      (sampleOpened ++ sampleFinish 0 ++ sampleFinish 1)).map
        (fun s => quiet sample s 0 && quiet sample s 1) = some true := by decide +kernel
  obtain ⟨s, hs, hquiet⟩ := map_eq_some_iff.mp hrun
  have htrace := GuardedTrace.of_trace (Trace.of_run hs)
  have hquiescent := quiescent_sample hquiet
  obtain ⟨_, -, -, -, batches, hrets, hrows⟩ :=
    ((exchangeS3_delivers sample sample_valid 1).2.2 0 (by decide) 0 rfl).2 _ s htrace hquiescent
  exact ⟨_, s, htrace, hquiescent, batches, hrets, hrows⟩

/-- **A lost notification.**  The metadata fetcher of worker 0 has opened both files and has found
    neither a file nor the end of the stream; before it waits, the end of the stream comes and is
    notified.  No event is left, and the scan of the worker never returns. -/
theorem exchangeS3_losesNotification :
    sample.Valid ∧ ∃ es s, Trace sample.system es s ∧ Quiescent sample.system productive s ∧
      (s.workers 0).hasUpstreamCompleted = true ∧
      ∀ batches, ¬ Returns (scan 1 (s.workers 0)).firstDrain batches := by
  have hrun : (sample.system.run sample.system.init
      (sampleOpened ++ [.test, .enter, .notify, .wait].map (.act 0) ++ sampleFinish 1)).map
        (fun s => (quiet sample s 0 && quiet sample s 1, (s.workers 0).hasUpstreamCompleted,
          (s.workers 0).hasPrefetchingCompleted)) = some (true, true, false) := by decide +kernel
  obtain ⟨s, hs, hend⟩ := map_eq_some_iff.mp hrun
  obtain ⟨hquiet, hend⟩ := Prod.mk.inj hend
  obtain ⟨hdone, hpre⟩ := Prod.mk.inj hend
  refine ⟨sample_valid, _, s, Trace.of_run hs, quiescent_sample hquiet, hdone, ?_⟩
  rw [scan, hpre]
  exact parquetScan_not_returns _ _

end ExchangeS3

end Jitq.Runtime

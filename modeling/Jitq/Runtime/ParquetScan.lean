import Jitq.Lib.Pull
import Mathlib.Data.List.Basic
import Mathlib.Data.List.Range

namespace Jitq.Runtime

open Fuel Pull List

/-! # The Parquet scan — from file descriptors to batches of rows

The scan is a chain of three pull operators:

* `parquetFileOperator` — hands out a `ParquetFileHandle` for each of the files that its threads have
  opened, in the order of its upstream;
* `parquetRowGroupOperator` — for each handle, the row groups that the range predicates do not rule
  out and that fall into the handle's slice of the file;
* `parquetScanOperator` — reads up to `maxPendingColumnReaders` row groups ahead and returns each one
  in batches of `batchSize` rows.

`parquetScan_firstDrain` says what the chain returns for any sequence of handles. -/

variable {ρ κ : Type}

/-! ### Files -/

/-- A row group: its rows, and the minimum and the maximum in the statistics of each column chunk. -/
structure RowGroup (ρ κ : Type) where
  rows : List ρ
  statistics : ℕ → κ × κ

/-- A Parquet file.  `num_row_groups()` is an `int`. -/
structure ParquetFile (ρ κ : Type) where
  rowGroups : List (RowGroup ρ κ)
  countable : rowGroups.length < 2 ^ 31

def ParquetFile.numRowGroups (file : ParquetFile ρ κ) : ℕ := file.rowGroups.length

structure RowGroupRange where
  sliceFrom : ℕ
  sliceTo : ℕ
  numSlices : ℕ
  deriving DecidableEq

structure ParquetFileHandle (ρ κ : Type) where
  filePath : String
  reader : ParquetFile ρ κ
  rowGroupRange : RowGroupRange

/-! ### File handles -/

/-- `WaitForFileHandles`, which polls `HasPendingFileHandles`. -/
def waitForFileHandles (hasPendingFileHandles : Bool) : Comp Unit :=
  iterate (fun _ => pure (if hasPendingFileHandles then .inl () else .inr ())) ()

variable (fileHandles : List (ParquetFileHandle ρ κ))

/-- `ParquetFileOperator`, once its threads take no further step: `fileHandles` are the files that they
    have opened, and `hasPrefetchingCompleted` is whether the one that opens them has come to its end. -/
def parquetFileOperator (hasPrefetchingCompleted : Bool) :
    Iter (ParquetFileHandle ρ κ) where
  State := List (ParquetFileHandle ρ κ)
  fresh := []
  open_ _ := pure fileHandles
  next handles := waitForFileHandles (handles.isEmpty && !hasPrefetchingCompleted) >>= fun _ =>
    pure (handles.head?, handles.tail)
  close handles := handles

/-- With the prefetching completed, the handles are returned and then the end of the stream. -/
def parquetFileReplay :
    Replay (parquetFileOperator fileHandles true) fileHandles where
  toServing := .ofNext (fun s ys => s = ys) fun {s ys} h => by
    subst h
    have hwait : Returns (waitForFileHandles (s.isEmpty && !true)) () := by
      rw [Bool.not_true, Bool.and_false]
      exact Iterates.returns (.done (.pure _))
    exact ⟨s.tail, hwait.bind (.pure _), rfl⟩
  Idle _ := True
  fresh := trivial
  opens _ := ⟨fileHandles, .pure _, rfl⟩
  close _ := trivial

/-- Otherwise a call behind the last handle does not return. -/
theorem parquetFile_next_nil (n : ℕ) :
    (parquetFileOperator fileHandles false).next [] n = none := by
  have hwait : waitForFileHandles true n = none := by
    by_contra hne
    obtain ⟨_, hloop⟩ := Option.ne_none_iff_exists'.mp hne
    refine iterate_invariant (P := fun _ => True) (Q := fun _ => False) (fun _ out _ hround => ?_) trivial hloop
    cases hround
    trivial
  exact congrArg (Option.bind · _) hwait

theorem parquetFile_endless :
    Endless (parquetFileOperator fileHandles false) fun _ => True where
  next {s n r s'} _ h := by
    cases s with
    | nil =>
      rw [parquetFile_next_nil] at h
      cases h
    | cons handle handles =>
      obtain ⟨_, -, hret⟩ := Option.bind_eq_some_iff.mp h
      cases hret
      exact ⟨rfl, trivial⟩

/-! ### Row groups -/

structure RangePredicate (κ : Type) where
  lo : κ
  hi : κ

/-- `ParquetRowGroupOperator::ColumnInfo`; the type tag is the order on `κ`. -/
structure ColumnInfo (κ : Type) where
  colId : ℕ
  rangePredicates : List (RangePredicate κ)

variable {handles : List (ParquetFileHandle ρ κ)} {columnInfos : List (ColumnInfo κ)}

section RowGroups

variable [LE κ] [DecidableLE κ]

/-- Whether one of the ranges overlaps the range of the statistics. -/
def evaluateRangePredicates (statistics : κ × κ) (rangePredicates : List (RangePredicate κ)) : Bool :=
  rangePredicates.any fun p => decide (p.lo ≤ statistics.2) && decide (statistics.1 ≤ p.hi)

/-- `ParquetRowGroupOperator::ComputeInterestingRowGroups`. -/
def computeInterestingRowGroups (columnInfos : List (ColumnInfo κ)) (file : ParquetFile ρ κ) : List ℕ :=
  (range file.numRowGroups).filter fun i =>
    match file.rowGroups[i]? with
    | none => false
    | some rowGroup => columnInfos.all fun info =>
        info.rangePredicates.isEmpty ||
          evaluateRangePredicates (rowGroup.statistics info.colId) info.rangePredicates

/-- `slice * num_row_groups / num_slices`, in `size_t`. -/
def sliceBound (slice numRowGroups numSlices : ℕ) : ℕ := slice * numRowGroups % 2 ^ 64 / numSlices

/-- The row groups of a handle, as the loop body of `ParquetRowGroupOperator::next` computes them. -/
def slicedRowGroups (columnInfos : List (ColumnInfo κ)) (handle : ParquetFileHandle ρ κ) : List ℕ :=
  let range := handle.rowGroupRange
  let first := sliceBound range.sliceFrom handle.reader.numRowGroups range.numSlices
  let last := sliceBound range.sliceTo handle.reader.numRowGroups range.numSlices
  (computeInterestingRowGroups columnInfos handle.reader).filter fun idx =>
    decide (first ≤ idx ∧ idx < last)

/-- The members of `ParquetRowGroupOperator`. -/
structure RowGroupState (σ ρ κ : Type) where
  upstream : σ
  parquetReader : Option (ParquetFile ρ κ)
  interestingRowGroups : List ℕ
  rowGroupIndex : ℕ

/-- One round of the loop that fetches a new file while no row groups are left; after the loop the
    next row group is returned. -/
def rowGroupRound (columnInfos : List (ColumnInfo κ)) (upstream : Iter (ParquetFileHandle ρ κ))
    (s : RowGroupState upstream.State ρ κ) :
    Comp (RowGroupState upstream.State ρ κ ⊕ (Option (RowGroup ρ κ) × RowGroupState upstream.State ρ κ)) :=
  match s.interestingRowGroups[s.rowGroupIndex]? with
  | none => upstream.next s.upstream >>= fun
    | (none, up) => pure (.inr (none, { s with upstream := up }))
    | (some handle, up) =>
      pure (.inl ⟨up, some handle.reader, slicedRowGroups columnInfos handle, 0⟩)
  | some currentRowGroup =>
    ofOption (s.parquetReader.bind fun reader => reader.rowGroups[currentRowGroup]?) >>=
      fun rowGroup => pure (.inr (some rowGroup, { s with rowGroupIndex := s.rowGroupIndex + 1 }))

/-- `ParquetRowGroupOperator`. -/
def parquetRowGroupOperator (columnInfos : List (ColumnInfo κ))
    (upstream : Iter (ParquetFileHandle ρ κ)) : Iter (RowGroup ρ κ) where
  State := RowGroupState upstream.State ρ κ
  fresh := ⟨upstream.fresh, none, [], 0⟩
  open_ s := upstream.open_ s.upstream >>= fun up => pure { s with upstream := up }
  next := iterate (rowGroupRound columnInfos upstream)
  close s := { s with upstream := upstream.close s.upstream }

/-- The row groups that are read for one handle. -/
def handleRowGroups (columnInfos : List (ColumnInfo κ)) (handle : ParquetFileHandle ρ κ) : List (RowGroup ρ κ) :=
  (slicedRowGroups columnInfos handle).filterMap fun idx => handle.reader.rowGroups[idx]?

theorem lt_of_mem_slicedRowGroups
    {handle : ParquetFileHandle ρ κ} {idx : ℕ} (h : idx ∈ slicedRowGroups columnInfos handle) :
    idx < handle.reader.rowGroups.length := by
  simp only [slicedRowGroups, computeInterestingRowGroups, mem_filter] at h
  exact mem_range.mp h.1.1

/-- What an open row group operator still returns of its current file. -/
def RowGroupState.Pending {σ : Type} (s : RowGroupState σ ρ κ) (groups : List (RowGroup ρ κ)) : Prop :=
  List.Forall₂ (fun idx rowGroup =>
      (s.parquetReader.bind fun reader => reader.rowGroups[idx]?) = some rowGroup)
    (s.interestingRowGroups.drop s.rowGroupIndex) groups

theorem pending_slicedRowGroups {σ : Type} (columnInfos : List (ColumnInfo κ))
    (handle : ParquetFileHandle ρ κ) (up : σ) :
    RowGroupState.Pending ⟨up, some handle.reader, slicedRowGroups columnInfos handle, 0⟩
      (handleRowGroups columnInfos handle) := by
  unfold RowGroupState.Pending handleRowGroups
  have hlt : ∀ idx ∈ slicedRowGroups columnInfos handle,
      idx < handle.reader.rowGroups.length := fun _ => lt_of_mem_slicedRowGroups
  revert hlt
  induction slicedRowGroups columnInfos handle with
  | nil => exact fun _ => .nil
  | cons idx rest ih =>
    intro hlt
    have hidx := getElem?_eq_getElem (hlt idx mem_cons_self)
    rw [filterMap_cons_some hidx]
    exact .cons hidx (ih fun i hi => hlt i (mem_cons_of_mem idx hi))

omit [LE κ] [DecidableLE κ] in
theorem RowGroupState.Pending.done {σ : Type} {s : RowGroupState σ ρ κ} (h : s.Pending []) :
    s.interestingRowGroups[s.rowGroupIndex]? = none := by
  have hdrop := forall₂_nil_right_iff.mp h
  rw [List.getElem?_eq_none_iff]
  exact drop_eq_nil_iff.mp hdrop

omit [LE κ] [DecidableLE κ] in
theorem RowGroupState.Pending.more {σ : Type} {s : RowGroupState σ ρ κ} {g : RowGroup ρ κ}
    {gs : List (RowGroup ρ κ)} (h : s.Pending (g :: gs)) :
    ∃ idx, s.interestingRowGroups[s.rowGroupIndex]? = some idx ∧
      (s.parquetReader.bind fun reader => reader.rowGroups[idx]?) = some g ∧
      RowGroupState.Pending { s with rowGroupIndex := s.rowGroupIndex + 1 } gs := by
  obtain ⟨idx, rest, hidx, hrest, hdrop⟩ := forall₂_cons_right_iff.mp h
  refine ⟨idx, ?_, hidx, ?_⟩
  · have hget := congrArg head? hdrop
    rwa [head?_drop, head?_cons] at hget
  · have htail := congrArg List.tail hdrop
    rw [tail_drop, tail_cons] at htail
    rw [Pending, htail]
    exact hrest

variable {u : Iter (ParquetFileHandle ρ κ)}

/-- The row groups that are left: those of the current file, then those of the other handles. -/
def rowGroupsLeft (columnInfos : List (ColumnInfo κ)) (cur : List (RowGroup ρ κ))
    (handles : List (ParquetFileHandle ρ κ)) : List (RowGroup ρ κ) :=
  cur ++ handles.flatMap (handleRowGroups columnInfos)

/-- What an open row group operator has left. -/
def RowGroupAt (columnInfos : List (ColumnInfo κ)) (S : Serving u) (s : RowGroupState u.State ρ κ)
    (groups : List (RowGroup ρ κ)) : Prop :=
  ∃ cur handles, s.Pending cur ∧ S.Busy s.upstream handles ∧ groups = rowGroupsLeft columnInfos cur handles

/-- One `next` of the row group operator.  The recursion is on the handles that are left: a round that
    goes on has taken one of them. -/
theorem rowGroup_next (columnInfos : List (ColumnInfo κ)) (S : Serving u) {s : RowGroupState u.State ρ κ}
    {cur : List (RowGroup ρ κ)} {handles : List (ParquetFileHandle ρ κ)} (hcur : s.Pending cur)
    (hup : S.Busy s.upstream handles) :
    ∃ s', Iterates (rowGroupRound columnInfos u) s ((rowGroupsLeft columnInfos cur handles).head?, s') ∧
      RowGroupAt columnInfos S s' (rowGroupsLeft columnInfos cur handles).tail := by
  cases cur with
  | cons g gs =>
    obtain ⟨idx, hidx, hget, hrest⟩ := hcur.more
    refine ⟨_, .done ?_, gs, handles, hrest, hup, rfl⟩
    simp only [rowGroupRound, hidx]
    exact (Returns.ofOption hget).bind (.pure _)
  | nil =>
    cases handles with
    | nil =>
      obtain ⟨up, hnext, hup'⟩ := S.next_nil hup
      refine ⟨{ s with upstream := up }, .done ?_, [], [], hcur, hup', rfl⟩
      simp only [rowGroupRound, hcur.done]
      exact hnext.bind (.pure _)
    | cons handle handles =>
      obtain ⟨up, hnext, hup'⟩ := S.next_cons hup
      obtain ⟨s', hit, hs'⟩ := rowGroup_next columnInfos S (pending_slicedRowGroups columnInfos handle up) hup'
      refine ⟨s', .step ?_ hit, hs'⟩
      simp only [rowGroupRound, hcur.done]
      exact hnext.bind (.pure _)
termination_by handles.length

/-- The row group operator serves the row groups of the handles in order. -/
def rowGroupServing (columnInfos : List (ColumnInfo κ)) (S : Serving u) :
    Serving (parquetRowGroupOperator columnInfos u) :=
  .ofNext (RowGroupAt columnInfos S) (by
    rintro s _ ⟨cur, handles, hcur, hup, rfl⟩
    obtain ⟨s', hit, hs'⟩ := rowGroup_next columnInfos S hcur hup
    exact ⟨s', hit.returns, hs'⟩)

/-- Without an end of the handles there is none of the row groups. -/
theorem rowGroup_endless (columnInfos : List (ColumnInfo κ)) {I : u.State → Prop} (h : Endless u I) :
    Endless (parquetRowGroupOperator columnInfos u) fun s => I s.upstream where
  next {s n r s'} hs hnext := by
    refine iterate_invariant (P := fun s : RowGroupState u.State ρ κ => I s.upstream)
      (Q := fun r : Option (RowGroup ρ κ) × RowGroupState u.State ρ κ => r.1.isSome ∧ I r.2.upstream)
      (fun a out ha hround => ?_) hs hnext
    cases hidx : a.interestingRowGroups[a.rowGroupIndex]? with
    | none =>
      simp only [rowGroupRound, hidx] at hround
      obtain ⟨⟨r, up⟩, hup, hround⟩ := Option.bind_eq_some_iff.mp hround
      obtain ⟨hsome, hI⟩ := h.next ha hup
      cases r with
      | none => cases hsome
      | some handle =>
        cases hround
        exact hI
    | some idx =>
      simp only [rowGroupRound, hidx] at hround
      obtain ⟨_, -, hround⟩ := Option.bind_eq_some_iff.mp hround
      cases hround
      exact ⟨rfl, ha⟩

end RowGroups

/-! ### Batches -/

/-- The number of batches of a row group. -/
def numBatchesOf (batchSize numRows : ℕ) : ℕ := (numRows + batchSize - 1) / batchSize

/-- The members of `ParquetScanOperatorImpl`: `colReaders` holds the rows that the column readers have
    not read yet, and the oldest of the pending column readers comes first. -/
structure ParquetScanState (σ ρ : Type) where
  upstream : σ
  numBatches : ℕ
  batchIndex : ℕ
  colReaders : List ρ
  pendingColumnReaders : List (List ρ)

section Scan

variable (maxPendingColumnReaders batchSize : ℕ) (u : Iter (RowGroup ρ κ))

/-- One round of the loop that starts reading row groups; it skips empty ones. -/
def prefetchRound (s : ParquetScanState u.State ρ) : Comp (ParquetScanState u.State ρ ⊕ ParquetScanState u.State ρ) :=
  u.next s.upstream >>= fun
    | (none, up) => pure (.inr { s with upstream := up })
    | (some rowGroup, up) =>
      if rowGroup.rows.length = 0 then pure (.inl { s with upstream := up })
      else
        let pending := s.pendingColumnReaders ++ [rowGroup.rows]
        let s' := { s with upstream := up, pendingColumnReaders := pending }
        if maxPendingColumnReaders ≤ pending.length then pure (.inr s') else pure (.inl s')

/-- Fetches one batch of all columns. -/
def readBatch {σ : Type} (s : ParquetScanState σ ρ) : Option (List ρ) × ParquetScanState σ ρ :=
  (some (s.colReaders.take batchSize),
    { s with colReaders := s.colReaders.drop batchSize, batchIndex := s.batchIndex + 1 })

/-- Makes the oldest pending row group the current one, if there is one. -/
def startRowGroup {σ : Type} (s : ParquetScanState σ ρ) : Option (List ρ) × ParquetScanState σ ρ :=
  match s.pendingColumnReaders with
  | [] => (none, s)
  | rows :: pending => readBatch batchSize
      ⟨s.upstream, numBatchesOf batchSize rows.length, 0, rows, pending⟩

/-- `ParquetScanOperatorImpl`. -/
def parquetScanOperator : Iter (List ρ) where
  State := ParquetScanState u.State ρ
  fresh := ⟨u.fresh, 0, 0, [], []⟩
  open_ s := u.open_ s.upstream >>= fun up => pure { s with upstream := up }
  next s :=
    if s.numBatches ≤ s.batchIndex then
      iterate (prefetchRound maxPendingColumnReaders u) s >>= fun s => pure (startRowGroup batchSize s)
    else pure (readBatch batchSize s)
  close s := { s with upstream := u.close s.upstream }

/-- The batches of a row group. -/
def batchesOf (rows : List ρ) : List (List ρ) :=
  (range (numBatchesOf batchSize rows.length)).map fun i =>
    (rows.drop (i * batchSize)).take batchSize

variable {batchSize}

section

variable (hb : 1 ≤ batchSize)

include hb

theorem numBatchesOf_zero : numBatchesOf batchSize 0 = 0 := Nat.div_eq_of_lt (by omega)

theorem numBatchesOf_pos {n : ℕ} (hn : 1 ≤ n) :
    numBatchesOf batchSize n = numBatchesOf batchSize (n - batchSize) + 1 := by
  unfold numBatchesOf
  by_cases hle : n ≤ batchSize
  · have hlow : (n - batchSize + batchSize - 1) / batchSize = 0 := Nat.div_eq_of_lt (by omega)
    have hone : (n + batchSize - 1) / batchSize = 1 := Nat.div_eq_of_lt_le (by omega) (by omega)
    rw [hlow, hone]
  · rw [show n + batchSize - 1 = (n - batchSize + batchSize - 1) + batchSize by omega, Nat.add_div_right _ (by omega)]

theorem batchesOf_nil : batchesOf batchSize ([] : List ρ) = [] := by
  rw [batchesOf, length_nil, numBatchesOf_zero hb, range_zero, map_nil]

theorem batchesOf_cons {rows : List ρ} (h : rows ≠ []) : batchesOf batchSize rows =
      rows.take batchSize :: batchesOf batchSize (rows.drop batchSize) := by
  have hlen : 1 ≤ rows.length := length_pos_iff.mpr h
  rw [batchesOf, numBatchesOf_pos hb hlen, range_succ_eq_map, map_cons, map_map,
    Nat.zero_mul, drop_zero, batchesOf, length_drop]
  refine congrArg _ (map_congr_left fun i _ => ?_)
  rw [Function.comp_apply, drop_drop, Nat.succ_mul, Nat.add_comm]

/-- The batches of a row group hold each row once and in order. -/
theorem flatten_batchesOf (rows : List ρ) : (batchesOf batchSize rows).flatten = rows := by
  induction hn : rows.length using Nat.strong_induction_on generalizing rows with
  | _ n ih =>
    by_cases hrows : rows = []
    · rw [hrows, batchesOf_nil hb, flatten_nil]
    · have hpos := length_pos_iff.mpr hrows
      rw [batchesOf_cons hb hrows, flatten_cons, ih (rows.drop batchSize).length (by rw [length_drop]; omega) _ rfl,
        take_append_drop]

end

variable {u}

/-- What is left of the row groups that are pending and of those that are not read yet. -/
def batchesLeft (batchSize : ℕ) (pending : List (List ρ)) (groups : List (RowGroup ρ κ)) : List (List ρ) :=
  (pending ++ groups.map RowGroup.rows).flatMap (batchesOf batchSize)

variable {s : ParquetScanState u.State ρ}

/-- The prefetch loop moves row groups to the pending ones, all of which have rows; it leaves none
    pending only if there are none left. -/
theorem prefetch_iterates (hb : 1 ≤ batchSize) (S : Serving u)
    {groups : List (RowGroup ρ κ)} (hup : S.Busy s.upstream groups)
    (hpend : ∀ rows ∈ s.pendingColumnReaders, rows ≠ []) :
    ∃ (up : u.State) (pending : List (List ρ)) (groups' : List (RowGroup ρ κ)),
      Iterates (prefetchRound maxPendingColumnReaders u) s
        { s with upstream := up, pendingColumnReaders := pending } ∧
      S.Busy up groups' ∧ (∀ rows ∈ pending, rows ≠ []) ∧ (pending = [] → groups' = []) ∧
      batchesLeft batchSize pending groups' = batchesLeft batchSize s.pendingColumnReaders groups := by
  induction groups generalizing s with
  | nil =>
    obtain ⟨up, hnext, hup'⟩ := S.next_nil hup
    exact ⟨up, s.pendingColumnReaders, [], .done (hnext.bind (.pure _)), hup', hpend, fun _ => rfl, rfl⟩
  | cons g groups ih =>
    obtain ⟨up, hnext, hup'⟩ := S.next_cons hup
    by_cases hempty : g.rows.length = 0
    · have hround : Returns (prefetchRound maxPendingColumnReaders u s)
          (.inl { s with upstream := up }) := by
        refine hnext.bind ?_
        simp only [hempty, if_true]
        exact .pure _
      obtain ⟨up', pending, groups', hit, hbusy, hne, hend, hleft⟩ :=
        ih (s := { s with upstream := up }) hup' hpend
      refine ⟨up', pending, groups', .step hround hit, hbusy, hne, hend, hleft.trans ?_⟩
      -- an empty row group has no batches
      have hnil : batchesOf batchSize g.rows = [] := by
        rw [length_eq_zero_iff.mp hempty, batchesOf_nil hb]
      simp [batchesLeft, hnil]
    · have hleft : batchesLeft batchSize (s.pendingColumnReaders ++ [g.rows]) groups =
          batchesLeft batchSize s.pendingColumnReaders (g :: groups) := by
        simp [batchesLeft]
      have hne : ∀ rows ∈ s.pendingColumnReaders ++ [g.rows], rows ≠ [] := by
        intro rows hrows
        rcases mem_append.mp hrows with hold | hnew
        · exact hpend rows hold
        · rw [mem_singleton.mp hnew]
          exact fun h => hempty (by rw [h, length_nil])
      by_cases hfull : maxPendingColumnReaders ≤ (s.pendingColumnReaders ++ [g.rows]).length
      · refine ⟨up, s.pendingColumnReaders ++ [g.rows], groups, .done (hnext.bind ?_), hup', hne, by simp, hleft⟩
        simp only [hempty, if_false, hfull, if_true]
        exact .pure _
      · let s1 : ParquetScanState u.State ρ :=
          { s with upstream := up, pendingColumnReaders := s.pendingColumnReaders ++ [g.rows] }
        have hround : Returns (prefetchRound maxPendingColumnReaders u s) (.inl s1) := by
          refine hnext.bind ?_
          simp only [hempty, if_false, hfull]
          exact .pure _
        obtain ⟨up', pending, groups', hit, hbusy, hne', hend, hleft'⟩ := ih (s := s1) hup' hne
        exact ⟨up', pending, groups', .step hround hit, hbusy, hne', hend, hleft'.trans hleft⟩

/-- The batches that an open scan still returns. -/
def ScanBusy (batchSize : ℕ) (S : Serving u) (s : ParquetScanState u.State ρ) (batches : List (List ρ)) : Prop :=
  ∃ groups, S.Busy s.upstream groups ∧ (∀ rows ∈ s.pendingColumnReaders, rows ≠ []) ∧
    s.numBatches = s.batchIndex + numBatchesOf batchSize s.colReaders.length ∧
    batches = batchesOf batchSize s.colReaders ++ batchesLeft batchSize s.pendingColumnReaders groups

theorem scanBusy_readBatch (hb : 1 ≤ batchSize) {S : Serving u}
    {batches : List (List ρ)} (h : ScanBusy batchSize S s batches) (hrows : s.colReaders ≠ []) :
    (readBatch batchSize s).1 = batches.head? ∧ ScanBusy batchSize S (readBatch batchSize s).2 batches.tail := by
  obtain ⟨groups, hup, hpend, hnum, rfl⟩ := h
  have hlen : 1 ≤ s.colReaders.length := length_pos_iff.mpr hrows
  rw [batchesOf_cons hb hrows]
  refine ⟨rfl, groups, hup, hpend, ?_, rfl⟩
  show s.numBatches = s.batchIndex + 1 + numBatchesOf batchSize (s.colReaders.drop batchSize).length
  rw [hnum, numBatchesOf_pos hb hlen, length_drop]
  omega

/-- The scan serves the batches of its row groups in order. -/
theorem scanBusy_next (hb : 1 ≤ batchSize) (S : Serving u)
    {batches : List (List ρ)} (h : ScanBusy batchSize S s batches) :
    ∃ s' : ParquetScanState u.State ρ, Returns ((parquetScanOperator maxPendingColumnReaders batchSize u).next s)
        (batches.head?, s') ∧ ScanBusy batchSize S s' batches.tail := by
  obtain ⟨groups, hup, hpend, hnum, hbatches⟩ := id h
  by_cases hend : s.numBatches ≤ s.batchIndex
  · have hrows : s.colReaders = [] := by
      by_contra hne
      have hpos := numBatchesOf_pos hb (length_pos_iff.mpr hne)
      omega
    rw [hrows, batchesOf_nil hb, nil_append] at hbatches
    obtain ⟨up, pending, groups', hit, hup', hpend', hlast, hleft⟩ :=
      prefetch_iterates maxPendingColumnReaders hb S hup hpend
    subst hbatches
    rw [← hleft]
    cases pending with
    | nil =>
      obtain rfl := hlast rfl
      refine ⟨{ s with upstream := up, pendingColumnReaders := [] }, ?_, [], hup', hpend', hnum, ?_⟩
      · simp only [parquetScanOperator, hend, if_true]
        exact hit.returns.bind (.pure _)
      · show [] = batchesOf batchSize s.colReaders ++ []
        rw [hrows, batchesOf_nil hb, append_nil]
    | cons rows pending =>
      have hbusy : ScanBusy batchSize S
          ⟨up, numBatchesOf batchSize rows.length, 0, rows, pending⟩
          (batchesLeft batchSize (rows :: pending) groups') :=
        ⟨groups', hup', fun r hr => hpend' r (mem_cons_of_mem rows hr),
          (Nat.zero_add _).symm, by simp [batchesLeft]⟩
      obtain ⟨hhead, hbusy'⟩ := scanBusy_readBatch hb hbusy (hpend' rows mem_cons_self)
      refine ⟨_, ?_, hbusy'⟩
      simp only [parquetScanOperator, hend, if_true]
      rw [← hhead]
      exact hit.returns.bind (.pure _)
  · have hrows : s.colReaders ≠ [] := by
      intro hnil
      rw [hnil, length_nil, numBatchesOf_zero hb] at hnum
      omega
    obtain ⟨hhead, hbusy'⟩ := scanBusy_readBatch hb h hrows
    refine ⟨_, ?_, hbusy'⟩
    simp only [parquetScanOperator, hend, if_false]
    rw [← hhead]
    exact .pure _

/-- Without an end of the row groups there is none of the batches: the prefetch loop leaves with a row
    group only. -/
theorem scan_endless {I : u.State → Prop} (h : Endless u I) :
    Endless (parquetScanOperator maxPendingColumnReaders batchSize u) fun s => I s.upstream where
  next {s n r s'} hs hnext := by
    unfold parquetScanOperator at hnext
    dsimp only at hnext
    split at hnext
    · obtain ⟨s1, hloop, hret⟩ := Option.bind_eq_some_iff.mp hnext
      have hleft : s1.pendingColumnReaders ≠ [] ∧ I s1.upstream := by
        refine iterate_invariant (P := fun s : ParquetScanState u.State ρ => I s.upstream)
          (Q := fun s : ParquetScanState u.State ρ => s.pendingColumnReaders ≠ [] ∧ I s.upstream)
          (fun a out ha hround => ?_) hs hloop
        obtain ⟨⟨r, up⟩, hup, hround⟩ := Option.bind_eq_some_iff.mp hround
        obtain ⟨hsome, hI⟩ := h.next ha hup
        cases r with
        | none => cases hsome
        | some g =>
          dsimp only at hround
          split at hround
          · cases hround
            exact hI
          · split at hround <;> cases hround
            · exact ⟨by simp, hI⟩
            · exact hI
      have hstart : startRowGroup batchSize s1 = (r, s') := Option.some.inj hret
      unfold startRowGroup at hstart
      split at hstart
      · next hnil => exact absurd hnil hleft.1
      · cases hstart
        exact ⟨rfl, hleft.2⟩
    · cases hnext
      exact ⟨rfl, hs⟩

end Scan

/-- `max_pending_column_readers_`. -/
def kMaxPendingColumnReaders : ℕ := 2

/-- `batch_size_`. -/
def kBatchSize : ℕ := 2 ^ 15

section Chain

variable [LE κ] [DecidableLE κ]

/-- The operators that `MakeParquetScanOperator` puts on top of the file operator. -/
def makeParquetScanOperator (columnInfos : List (ColumnInfo κ))
    (files : Iter (ParquetFileHandle ρ κ)) : Iter (List ρ) :=
  parquetScanOperator kMaxPendingColumnReaders kBatchSize
    (parquetRowGroupOperator columnInfos files)

/-- The batches that the scan returns for some handles. -/
def scanBatches (columnInfos : List (ColumnInfo κ)) (handles : List (ParquetFileHandle ρ κ)) : List (List ρ) :=
  (handles.flatMap (handleRowGroups columnInfos)).flatMap fun rowGroup =>
    batchesOf kBatchSize rowGroup.rows

variable {files : Iter (ParquetFileHandle ρ κ)}

/-- What the scan returns for any prefetch depth and any batch size: the batches of the row groups that
    the row group operator hands out, in order. -/
theorem scanOperator_firstDrain (maxPendingColumnReaders : ℕ) {batchSize : ℕ} (hb : 1 ≤ batchSize)
    (columnInfos : List (ColumnInfo κ)) (R : Replay files handles) :
    Returns (parquetScanOperator maxPendingColumnReaders batchSize
        (parquetRowGroupOperator columnInfos files)).firstDrain
      (batchesLeft batchSize [] (handles.flatMap (handleRowGroups columnInfos))) := by
  let S := rowGroupServing columnInfos R.toServing
  obtain ⟨up, hopen, hup⟩ := R.opens R.fresh
  let T : Serving (parquetScanOperator maxPendingColumnReaders batchSize
      (parquetRowGroupOperator columnInfos files)) :=
    .ofNext (ScanBusy batchSize S) (scanBusy_next maxPendingColumnReaders hb S)
  have hbusy : T.Busy ⟨⟨up, none, [], 0⟩, 0, 0, [], []⟩
      (batchesLeft batchSize [] (handles.flatMap (handleRowGroups columnInfos))) := by
    refine ⟨handles.flatMap (handleRowGroups columnInfos), ⟨[], handles, .nil, hup, rfl⟩,
      by simp, by rw [length_nil, numBatchesOf_zero hb], ?_⟩
    rw [batchesOf_nil hb, nil_append]
  obtain ⟨s', hdrain, -⟩ := T.drains hbusy
  refine Drains.firstDrain ?_ hdrain
  exact Returns.bind (Returns.bind hopen (.pure _)) (.pure _)

/-- **What the Parquet scan returns**, for any files: of each handle the batches of the row groups
    that are neither ruled out nor outside of the slice. -/
theorem parquetScan_firstDrain (columnInfos : List (ColumnInfo κ)) (R : Replay files handles) :
    Returns (makeParquetScanOperator columnInfos files).firstDrain (scanBatches columnInfos handles) := by
  have hb : 1 ≤ kBatchSize := by decide
  have hscan := scanOperator_firstDrain kMaxPendingColumnReaders hb columnInfos R
  rw [batchesLeft, nil_append, flatMap_map] at hscan
  exact hscan

/-- While the prefetching is not completed, reading the scan to its end does not return. -/
theorem parquetScan_not_returns (columnInfos : List (ColumnInfo κ))
    (fileHandles : List (ParquetFileHandle ρ κ)) (batches : List (List ρ)) : ¬ Returns
      (makeParquetScanOperator columnInfos (parquetFileOperator fileHandles false)).firstDrain
        batches := by
  refine (scan_endless _ (rowGroup_endless columnInfos
    (parquetFile_endless fileHandles))).not_returns_firstDrain (((Returns.pure _).bind (.pure _)).bind (.pure _)) trivial _

omit [LE κ] [DecidableLE κ] in
/-- Cutting row groups into batches loses no row and keeps their order. -/
theorem flatten_batchesLeft {batchSize : ℕ} (hb : 1 ≤ batchSize) (groups : List (RowGroup ρ κ)) :
    (batchesLeft batchSize [] groups).flatten = groups.flatMap RowGroup.rows := by
  rw [batchesLeft, nil_append, flatMap_map, ← flatMap_id, flatMap_assoc]
  refine flatMap_congr fun rowGroup _ => ?_
  rw [flatMap_id, flatten_batchesOf hb]

theorem flatten_scanBatches (columnInfos : List (ColumnInfo κ)) (handles : List (ParquetFileHandle ρ κ)) :
    (scanBatches columnInfos handles).flatten =
      handles.flatMap fun handle => (handleRowGroups columnInfos handle).flatMap RowGroup.rows := by
  have hb : 1 ≤ kBatchSize := by decide
  have hflat := flatten_batchesLeft hb (handles.flatMap (handleRowGroups columnInfos))
  rw [batchesLeft, nil_append, flatMap_map] at hflat
  rw [← flatMap_assoc]
  exact hflat

/-- Without range predicates every row group of the file is interesting. -/
theorem computeInterestingRowGroups_of_no_predicates
    (h : ∀ info ∈ columnInfos, info.rangePredicates = []) (file : ParquetFile ρ κ) :
    computeInterestingRowGroups columnInfos file = range file.numRowGroups := by
  refine filter_eq_self.mpr fun i hi => ?_
  rw [getElem?_eq_getElem (mem_range.mp hi)]
  refine all_eq_true.mpr fun info hinfo => ?_
  rw [h info hinfo, isEmpty_nil, Bool.true_or]

/-- Of a file cut into as many slices as it has row groups, slice `i` is row group `i`. -/
theorem handleRowGroups_slice
    (h : ∀ info ∈ columnInfos, info.rangePredicates = []) (path : String) (file : ParquetFile ρ κ)
    {i : ℕ} (hi : i < file.rowGroups.length) :
    handleRowGroups columnInfos ⟨path, file, ⟨i, i + 1, file.rowGroups.length⟩⟩ = [file.rowGroups[i]] := by
  have hbound : ∀ j ≤ file.rowGroups.length,
      sliceBound j file.numRowGroups file.rowGroups.length = j := by
    intro j hj
    have hcount := file.countable
    -- the product of two `int`s fits into a `size_t`
    have hmul : j * file.rowGroups.length < 2 ^ 64 := by
      calc j * file.rowGroups.length ≤ 2 ^ 31 * 2 ^ 31 := Nat.mul_le_mul (by omega) (by omega)
        _ < 2 ^ 64 := by decide
    rw [sliceBound, ParquetFile.numRowGroups, Nat.mod_eq_of_lt hmul, Nat.mul_div_cancel _ (by omega)]
  have hslice : slicedRowGroups columnInfos ⟨path, file, ⟨i, i + 1, file.rowGroups.length⟩⟩ = [i] := by
    simp only [slicedRowGroups, computeInterestingRowGroups_of_no_predicates h, hbound i hi.le, hbound (i + 1) hi]
    have hone : ∀ idx, decide (i ≤ idx ∧ idx < i + 1) = decide (idx = i) := by
      intro idx
      exact decide_eq_decide.mpr (by omega)
    rw [filter_congr fun idx _ => hone idx, filter_eq,
      ParquetFile.numRowGroups, count_eq_one_of_mem nodup_range (mem_range.mpr hi)]
    rfl
  rw [handleRowGroups, hslice, filterMap_cons_some (getElem?_eq_getElem hi), filterMap_nil]

end Chain

end Jitq.Runtime

import Jitq.Operators.Pipelined

namespace Jitq.Runtime

open Fuel Pull Operators List

/-! # MaterializeParquet — record batches into row groups

`MaterializeParquetOperatorImpl::next` collects record batches until they have the target number of rows, writes them
as one row group, and starts over.  One test in its loop ends it: no row is pending.  At the end of the input that is
right, but an empty batch that comes while no row is pending ends the loop as well.

* `rowGroups` — what the loop writes for a list of batches, and whether it ended at the end of its input;
* `writeRound_runs` — the loop writes that;
* `materializeParquet_writes_iff` — every row is written once, in groups of the target size, exactly if no empty batch
  comes while no row is pending. -/

variable {α ρ : Type}

/-! ### The operator -/

/-- The configuration, as parsed. -/
structure WriterConfig where
  filename : String
  filesystem : String
  targetNumRowsPerRowGroup : Option ℤ

/-- `target_num_rows_per_row_group`, with its default.  `jconfig.value` returns an `int`, like the
    default, which is then taken as a `size_t`. -/
def WriterConfig.target (config : WriterConfig) : ℕ :=
  ((config.targetNumRowsPerRowGroup.getD (10 * 1000 * 1000)).bmod (2 ^ 32) % 2 ^ 64).toNat

/-- A file with its row groups. -/
structure WrittenFile (ρ : Type) where
  filesystem : String
  filename : String
  rowGroups : List (List ρ)

/-- The locals of the loop: the batches of the current row group and their number of rows, and the row groups that the
    file has so far. -/
structure WriterState (σ ρ : Type) where
  upstream : σ
  currentRowGroup : List (List ρ)
  currentRowGroupSize : ℕ
  written : List (List ρ)

/-- One round of the loop.  A table of the batches has their rows one after the other. -/
def writeRound (target : ℕ) (upstream : Iter (List ρ)) (s : WriterState upstream.State ρ) :
    Comp (WriterState upstream.State ρ ⊕ (upstream.State × List (List ρ))) :=
  upstream.next s.upstream >>= fun (input, u) =>
    let currentRowGroup := s.currentRowGroup ++ input.toList
    let currentRowGroupSize := s.currentRowGroupSize + (input.map List.length).getD 0
    if currentRowGroupSize = 0 then pure (.inr (u, s.written))
    else if currentRowGroupSize ≥ target ∨ input.isNone then
      pure (.inl ⟨u, [], 0, s.written ++ [currentRowGroup.flatten]⟩)
    else pure (.inl ⟨u, currentRowGroup, currentRowGroupSize, s.written⟩)

/-- `ValueToRecordBatchOperator`. -/
def valueToRecordBatchOperator (convertValueToRecordBatch : α → List ρ) (upstream : Iter α) : Iter (List ρ) :=
  mapOperator convertValueToRecordBatch upstream

/-- The members of `MaterializeParquetOperatorImpl`, and the files that it has written. -/
structure MaterializeParquetState (σ₁ σ₂ ρ : Type) where
  mainUpstream : σ₁
  confUpstream : σ₂
  hasReturned : Bool
  files : List (WrittenFile ρ)

/-- The name of the file, a range of slices and the number of slices. -/
abbrev FileSlices := String × ℕ × ℕ × ℕ

/-- `MaterializeParquetOperatorImpl`. -/
def materializeParquetOperator (mainUpstream : Iter (List ρ)) (confUpstream : Iter WriterConfig) : Iter FileSlices where
  State := MaterializeParquetState mainUpstream.State confUpstream.State ρ
  fresh := ⟨mainUpstream.fresh, confUpstream.fresh, false, []⟩
  open_ s := pure s
  next s :=
    if s.hasReturned then pure (none, s)
    else do
      let c ← confUpstream.open_ s.confUpstream
      let (ret, c) ← confUpstream.next c
      let config ← ofOption ret
      let m ← mainUpstream.open_ s.mainUpstream
      let (m, written) ← iterate (writeRound config.target mainUpstream) ⟨m, [], 0, []⟩
      let file := ⟨config.filesystem, config.filename, written⟩
      pure (some (config.filename, 0, 1, 1), ⟨mainUpstream.close m, confUpstream.close c, true, s.files ++ [file]⟩)
  close s := s

/-! ### What the loop writes -/

/-- The row groups for a list of batches behind the rows `pending`, and whether the loop goes on to the end of the
    input. -/
def rowGroups (target : ℕ) : List ρ → List (List ρ) → List (List ρ) × Bool
  | pending, [] => (if pending = [] then [] else [pending], true)
  | pending, batch :: batches =>
    if pending ++ batch = [] then ([], false)
    else if target ≤ (pending ++ batch).length then
      ((pending ++ batch) :: (rowGroups target [] batches).1, (rowGroups target [] batches).2)
    else rowGroups target (pending ++ batch) batches

/-- No empty batch comes while no row is pending; `pending` is their number, and the numbers of rows of the batches
    follow. -/
def NeverIdle (target : ℕ) : ℕ → List ℕ → Prop
  | _, [] => True
  | pending, size :: sizes =>
    pending + size ≠ 0 ∧ NeverIdle target (if target ≤ pending + size then 0 else pending + size) sizes

theorem rowGroups_ends_iff (target : ℕ) (pending : List ρ) (batches : List (List ρ)) :
    (rowGroups target pending batches).2 = true ↔ NeverIdle target pending.length (batches.map List.length) := by
  induction batches generalizing pending with
  | nil => simp [rowGroups, NeverIdle]
  | cons batch batches ih =>
    have hlen : (pending ++ batch).length = pending.length + batch.length := length_append
    rw [map_cons, NeverIdle, rowGroups]
    split
    · rename_i hnil
      have hzero : pending.length + batch.length = 0 := by rw [← hlen, hnil, length_nil]
      simp [hzero]
    · rename_i hne
      have hpos : pending.length + batch.length ≠ 0 := by
        rw [← hlen]
        exact fun h => hne (length_eq_zero_iff.mp h)
      rw [hlen, and_iff_right hpos]
      split
      · exact ih []
      · rw [ih, hlen]

/-- If the loop goes on to the end, the groups have all rows, and each but the last has the target size. -/
theorem rowGroups_complete (target : ℕ) (pending : List ρ) (batches : List (List ρ))
    (h : (rowGroups target pending batches).2 = true) :
    (rowGroups target pending batches).1.flatten = pending ++ batches.flatten ∧
      ∀ group ∈ (rowGroups target pending batches).1.dropLast, target ≤ group.length := by
  induction batches generalizing pending with
  | nil =>
    rw [rowGroups]
    split
    · rename_i hnil
      simp [hnil]
    · simp
  | cons batch batches ih =>
    rw [rowGroups] at h ⊢
    split at h
    · cases h
    · rename_i hne
      rw [if_neg hne]
      split at h
      · -- a group of the target size is written
        rename_i htgt
        rw [if_pos htgt]
        obtain ⟨hrows, hsizes⟩ := ih [] h
        refine ⟨by simp [hrows], fun group hgrp => ?_⟩
        cases hrest : (rowGroups target [] batches).1 with
        | nil => simp [hrest] at hgrp
        | cons g gs =>
          rw [hrest, dropLast_cons_cons, mem_cons] at hgrp
          rcases hgrp with rfl | hgrp
          · exact htgt
          · exact hsizes group (hrest ▸ hgrp)
      · rename_i htgt
        rw [if_neg htgt]
        obtain ⟨hrows, hsizes⟩ := ih (pending ++ batch) h
        exact ⟨by rw [hrows, flatten_cons, append_assoc], hsizes⟩

/-! ### The loop -/

variable {u : Iter α} {values : List α} {R : Replay u values} (convert : α → List ρ)

/-- One round by the rows that are pending after it. -/
theorem writeRound_returns (target : ℕ) {upstream : Iter (List ρ)} {u u' : upstream.State}
    {input : Option (List ρ)} (h : Returns (upstream.next u) (input, u')) (current written : List (List ρ)) :
    Returns (writeRound target upstream ⟨u, current, current.flatten.length, written⟩)
      (let pending := (current ++ input.toList).flatten
        if pending = [] then .inr (u', written)
        else if target ≤ pending.length ∨ input = none then .inl ⟨u', [], 0, written ++ [pending]⟩
        else .inl ⟨u', current ++ input.toList, pending.length, written⟩) := by
  have hsize : current.flatten.length + (input.map List.length).getD 0 =
      (current ++ input.toList).flatten.length := by
    cases input <;> simp
  refine h.bind ?_
  simp only [hsize, length_eq_zero_iff, ge_iff_le, Option.isNone_iff_eq_none]
  split_ifs <;> exact .pure _

/-- The loop writes these row groups, and it sees the end of the input if it goes on to it.  The
    induction is on the batches that are left. -/
theorem writeRound_runs (target : ℕ) {m : u.logged.State} {read left : List α} (h : R.Reading m read left)
    (current : List (List ρ)) (written : List (List ρ)) :
    ∃ m' : u.logged.State, Iterates (writeRound target (valueToRecordBatchOperator convert u.logged))
        ⟨m, current, current.flatten.length, written⟩
        (m', written ++ (rowGroups target current.flatten (left.map convert)).1) ∧
      (none ∈ m'.2 ↔ (rowGroups target current.flatten (left.map convert)).2 = true) ∧ ∃ ys, R.Busy m'.1 ys := by
  have hround : ∀ {m m' : u.logged.State} {value : Option α}, Returns (u.logged.next m) (value, m') →
      Returns ((valueToRecordBatchOperator convert u.logged).next m) (value.map convert, m') := by
    intro _ _ value hnext
    cases value <;> exact hnext.bind (.pure _)
  induction left generalizing m read current written with
  | nil =>
    obtain ⟨m1, hnext, hended⟩ := h.next_nil
    have hlast := writeRound_returns target (hround hnext) current written
    simp only [Option.map_none, Option.toList_none, append_nil, or_true, if_true] at hlast
    by_cases hpend : current.flatten = []
    · rw [if_pos hpend] at hlast
      refine ⟨m1, ?_, by simp [rowGroups, hended.2.1], [], hended.1⟩
      rw [map_nil, rowGroups, if_pos hpend, append_nil]
      exact .done hlast
    · -- the last group is written, and the end is read once more
      rw [if_neg hpend] at hlast
      obtain ⟨m2, hnext2, hended2⟩ := hended.next
      refine ⟨m2, ?_, by simp [rowGroups, hended2.2.1], [], hended2.1⟩
      rw [map_nil, rowGroups, if_neg hpend]
      exact .step hlast (.done (writeRound_returns target (hround hnext2) [] _))
  | cons value left ih =>
    obtain ⟨m1, hnext, hs1⟩ := h.next_cons
    have hflat : (current ++ [convert value]).flatten = current.flatten ++ convert value := by simp
    have hstep := writeRound_returns target (hround hnext) current written
    simp only [Option.map_some, Option.toList_some, hflat, reduceCtorEq, or_false] at hstep
    rw [map_cons, rowGroups]
    by_cases hnil : current.flatten ++ convert value = []
    · -- an empty batch, and nothing is pending: the loop ends here
      rw [if_pos hnil] at hstep ⊢
      have hlog : none ∉ m1.2 := by simp [hs1.2.1]
      exact ⟨m1, by rw [append_nil]; exact .done hstep, by simp [hlog], left, hs1.1⟩
    · rw [if_neg hnil] at hstep ⊢
      by_cases htgt : target ≤ (current.flatten ++ convert value).length
      · rw [if_pos htgt] at hstep ⊢
        obtain ⟨m', hit, hend⟩ := ih hs1 [] (written ++ [current.flatten ++ convert value])
        rw [append_assoc, singleton_append] at hit
        exact ⟨m', .step hstep hit, hend⟩
      · rw [if_neg htgt] at hstep ⊢
        obtain ⟨m', hit, hend⟩ := ih hs1 (current ++ [convert value]) written
        rw [hflat] at hit hend
        exact ⟨m', .step hstep hit, hend⟩

/-! ### The file -/

variable {convert} {conf : Iter WriterConfig} {config : WriterConfig} {configs : List WriterConfig}

/-- The first `next` writes one file with these row groups. -/
theorem materializeParquet_next (convert : α → List ρ) (R : Replay u values) (C : Replay conf (config :: configs)) :
    ∃ s' : MaterializeParquetState u.logged.State conf.State ρ,
      Returns ((materializeParquetOperator (valueToRecordBatchOperator convert u.logged) conf).next
        ⟨u.logged.fresh, conf.fresh, false, []⟩) (some (config.filename, 0, 1, 1), s') ∧
      s'.files = [⟨config.filesystem, config.filename, (rowGroups config.target [] (values.map convert)).1⟩] ∧
      (none ∈ s'.mainUpstream.2 ↔ (rowGroups config.target [] (values.map convert)).2 = true) := by
  obtain ⟨c1, hconf, hc1⟩ := C.opens C.fresh
  obtain ⟨c2, hret, -⟩ := C.next_cons hc1
  obtain ⟨m1, hopen, hm1⟩ := R.logged_opens R.fresh
  obtain ⟨m2, hit, hlog, -⟩ := writeRound_runs convert config.target hm1 [] []
  refine ⟨⟨u.logged.close m2, conf.close c2, true, _⟩, ?_, rfl, hlog⟩
  exact hconf.bind (hret.bind ((Returns.ofOption rfl).bind (hopen.bind (hit.returns.bind (.pure _)))))

/-- The operator writes every row once, in row groups that have the target size except for the last, and reads its
    input to the end. -/
def WritesEveryRow (convert : α → List ρ) (u : Iter α) (conf : Iter WriterConfig) (values : List α)
    (config : WriterConfig) : Prop :=
  ∃ s s' : MaterializeParquetState u.logged.State conf.State ρ,
    Returns ((materializeParquetOperator (valueToRecordBatchOperator convert u.logged) conf).open_
      ⟨u.logged.fresh, conf.fresh, false, []⟩) s ∧
    Returns ((materializeParquetOperator (valueToRecordBatchOperator convert u.logged) conf).next s)
      (some (config.filename, 0, 1, 1), s') ∧
    ∃ groups, s'.files = [⟨config.filesystem, config.filename, groups⟩] ∧
      groups.flatten = (values.map convert).flatten ∧
      (∀ group ∈ groups.dropLast, config.target ≤ group.length) ∧ none ∈ s'.mainUpstream.2

/-- **When every row is written once.**  For batches of any sizes and any target, the rows of all batches are written
    in order, in groups of at least the target size except for the last, and the loop ends after the end of the input
    was signalled, exactly if no empty batch comes while no row is pending. -/
theorem materializeParquet_writes_iff (convert : α → List ρ) (R : Replay u values)
    (C : Replay conf (config :: configs)) :
    WritesEveryRow convert u conf values config ↔
      NeverIdle config.target 0 (values.map fun value => (convert value).length) := by
  have hends := rowGroups_ends_iff config.target [] (values.map convert)
  rw [map_map] at hends
  obtain ⟨s₁, hnext, hfiles, hlog⟩ := materializeParquet_next convert R C
  constructor
  · rintro ⟨s, s', hopen, hnext', groups, -, -, -, hnone⟩
    obtain rfl : _ = s := Returns.unique (.pure _) hopen
    obtain rfl : s₁ = s' := (Prod.mk.inj (hnext.unique hnext')).2
    exact hends.mp (hlog.mp hnone)
  · intro h
    obtain ⟨hrows, hsizes⟩ := rowGroups_complete config.target [] (values.map convert) (hends.mpr h)
    exact ⟨_, s₁, .pure _, hnext, _, hfiles, hrows, hsizes, hlog.mpr (hends.mpr h)⟩

/-- An empty batch in front of a batch with one row: nothing is written, and the second batch is not read. -/
theorem materializeParquet_loses_rows :
    ∃ s' : MaterializeParquetState (Iter.ofList [[], [7]]).logged.State (Iter.ofList [WriterConfig.mk "f" "file" (some 1)]).State ℕ,
      Returns ((materializeParquetOperator (valueToRecordBatchOperator id (Iter.ofList [[], [7]]).logged)
        (Iter.ofList [⟨"f", "file", some 1⟩])).next
          ⟨(Iter.ofList [[], [7]]).logged.fresh, (Iter.ofList [WriterConfig.mk "f" "file" (some 1)]).fresh, false, []⟩)
        (some ("f", 0, 1, 1), s') ∧ s'.files = [⟨"file", "f", []⟩] := by
  obtain ⟨s', hnext, hfiles, -⟩ := materializeParquet_next (id : List ℕ → List ℕ) (Replay.ofList [[], [7]])
    (Replay.ofList [WriterConfig.mk "f" "file" (some 1)])
  exact ⟨s', hnext, hfiles⟩

end Jitq.Runtime

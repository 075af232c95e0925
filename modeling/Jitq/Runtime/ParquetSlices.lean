import Jitq.Lib.Partial
import Jitq.Runtime.MaterializeParquet
import Jitq.Runtime.ParquetScan
import Mathlib.Data.List.Chain
import Mathlib.Order.Defs.Unbundled

namespace Jitq.Runtime

open Fuel Pull List

/-! # Slices of a Parquet file

A scan of a file is split among workers by a chain of slice bounds.  Worker `j` reads the row groups
whose index is between the bounds of its slice, computed with a multiplication in `size_t` and a
division (`sliceBound`).  The slices cut the row groups of the file into consecutive pieces exactly if
that multiplication does not wrap around at the last bound (`parquetSlices_exact_iff`):

* up to there the bounds are monotone, and adjacent windows of a sorted list join (`filter_windows`);
* where it wraps, two neighbouring bounds decrease, and the slices after them read row group `0` a
  second time (`exists_wrap`).

A file that `MaterializeParquet` wrote and that is scanned in slices has the rows that were written
(`parquet_roundTrip`). -/

variable {ρ κ : Type}

/-! ### Windows of a sorted list -/

/-- Two adjacent windows of a sorted list are one window. -/
theorem filter_window_append {ys : List ℕ} (hsorted : ys.Pairwise (· < ·)) {a b c : ℕ} (hab : a ≤ b) (hbc : b ≤ c) :
    ys.filter (fun y => decide (a ≤ y ∧ y < b)) ++ ys.filter (fun y => decide (b ≤ y ∧ y < c)) =
      ys.filter (fun y => decide (a ≤ y ∧ y < c)) := by
  induction ys with
  | nil => rfl
  | cons y ys ih =>
    have hrest := ih (List.Pairwise.of_cons hsorted)
    by_cases hy : y < b
    · -- `y` is in front of the second window
      have hsecond : ¬ (b ≤ y ∧ y < c) := by omega
      have hiff : (a ≤ y ∧ y < b) ↔ (a ≤ y ∧ y < c) := by omega
      simp only [filter_cons, hsecond, hiff, decide_false, Bool.false_eq_true, if_false]
      split
      · rw [cons_append, hrest]
      · exact hrest
    · -- behind `y` nothing is in the first window any more
      have hfirst : ys.filter (fun z => decide (a ≤ z ∧ z < b)) = [] := by
        refine filter_eq_nil_iff.mpr fun z hz => ?_
        have hlt := rel_of_pairwise_cons hsorted hz
        simp only [decide_eq_true_eq]
        omega
      have hnot : ¬ (a ≤ y ∧ y < b) := by omega
      have hiff : (b ≤ y ∧ y < c) ↔ (a ≤ y ∧ y < c) := by omega
      rw [hfirst, nil_append] at hrest
      simp only [filter_cons, hnot, hiff, hfirst, hrest, decide_false, Bool.false_eq_true, if_false, nil_append]

/-- The slices of a chain of bounds. -/
def slicesOf (bounds : List ℕ) : List (ℕ × ℕ) := bounds.zip bounds.tail

/-- The windows between the images of a chain of bounds, one after the other. -/
theorem filter_windows {ys : List ℕ} (hsorted : ys.Pairwise (· < ·)) (bound : ℕ → ℕ) {last : ℕ}
    (rest : List ℕ) {s : ℕ} (hlast : (s :: rest).getLast? = some last)
    (hmono : (s :: rest).Pairwise fun s t => bound s ≤ bound t) : ((slicesOf (s :: rest)).flatMap fun slice =>
        ys.filter fun y => decide (bound slice.1 ≤ y ∧ y < bound slice.2)) =
      ys.filter fun y => decide (bound s ≤ y ∧ y < bound last) := by
  induction rest generalizing s with
  | nil =>
    obtain rfl : s = last := Option.some.inj hlast
    have hempty : ys.filter (fun y => decide (bound s ≤ y ∧ y < bound s)) = [] := by
      refine filter_eq_nil_iff.mpr fun y _ => ?_
      simp only [decide_eq_true_eq]
      omega
    rw [hempty]
    rfl
  | cons t rest ih =>
    have hlast' : (t :: rest).getLast? = some last := by
      rwa [getLast?_cons_cons] at hlast
    have hst : bound s ≤ bound t := rel_of_pairwise_cons hmono mem_cons_self
    have htail := ih hlast' (List.Pairwise.of_cons hmono)
    have htlast : bound t ≤ bound last := by
      rcases mem_cons.mp (mem_of_getLast? hlast') with h | h
      · exact h ▸ le_refl _
      · exact rel_of_pairwise_cons (List.Pairwise.of_cons hmono) h
    show _ ++ (slicesOf (t :: rest)).flatMap _ = _
    rw [htail]
    exact filter_window_append hsorted hst htlast

/-! ### Slice bounds -/

variable {numRowGroups numSlices : ℕ}

theorem sliceBound_zero : sliceBound 0 numRowGroups numSlices = 0 := by
  rw [sliceBound, Nat.zero_mul, Nat.zero_mod, Nat.zero_div]

theorem sliceBound_of_fits {s : ℕ} (hs : s ≤ numSlices) (hfits : numSlices * numRowGroups < 2 ^ 64) :
    sliceBound s numRowGroups numSlices = s * numRowGroups / numSlices := by
  have hle : s * numRowGroups ≤ numSlices * numRowGroups := Nat.mul_le_mul_right _ hs
  rw [sliceBound, Nat.mod_eq_of_lt (lt_of_le_of_lt hle hfits)]

theorem sliceBound_mono {s t : ℕ} (hst : s ≤ t) (ht : t ≤ numSlices) (hfits : numSlices * numRowGroups < 2 ^ 64) :
    sliceBound s numRowGroups numSlices ≤ sliceBound t numRowGroups numSlices := by
  rw [sliceBound_of_fits (hst.trans ht) hfits, sliceBound_of_fits ht hfits]
  exact Nat.div_le_div_right (Nat.mul_le_mul_right _ hst)

theorem sliceBound_last (hn : 1 ≤ numSlices) (hfits : numSlices * numRowGroups < 2 ^ 64) :
    sliceBound numSlices numRowGroups numSlices = numRowGroups := by
  rw [sliceBound_of_fits (le_refl _) hfits]
  exact Nat.mul_div_cancel_left _ hn

/-- Where the product does not fit, it wraps around between two neighbouring bounds: the first of them
    still is at least `1`, the second one is `0` again. -/
theorem exists_wrap (hcount : numRowGroups < 2 ^ 31) (hn : numSlices < 2 ^ 63)
    (hwraps : 2 ^ 64 ≤ numSlices * numRowGroups) :
    ∃ s < numSlices, 1 ≤ sliceBound s numRowGroups numSlices ∧ sliceBound (s + 1) numRowGroups numSlices = 0 := by
  have hgrps : 0 < numRowGroups := by
    rcases Nat.eq_zero_or_pos numRowGroups with h | h
    · rw [h, Nat.mul_zero] at hwraps
      omega
    · exact h
  -- the last bound whose product fits
  let s := (2 ^ 64 - 1) / numRowGroups
  have hlow : s * numRowGroups ≤ 2 ^ 64 - 1 := Nat.div_mul_le_self _ _
  have hhigh : 2 ^ 64 - 1 < (s + 1) * numRowGroups := by
    rw [Nat.mul_comm]
    exact Nat.lt_mul_div_succ _ hgrps
  have hsucc : (s + 1) * numRowGroups = s * numRowGroups + numRowGroups := Nat.succ_mul _ _
  have hslices : s < numSlices := by
    by_contra hle
    have := Nat.mul_le_mul_right numRowGroups (Nat.le_of_not_lt hle)
    omega
  -- there are more slices than row groups, or the product would fit
  have hmany : numRowGroups < numSlices := by
    by_contra hle
    have hprod : numSlices * numRowGroups ≤ 2 ^ 31 * 2 ^ 31 := Nat.mul_le_mul (by omega) (by omega)
    omega
  refine ⟨s, hslices, ?_, ?_⟩
  · rw [sliceBound, Nat.mod_eq_of_lt (by omega)]
    exact Nat.div_pos (by omega) (by omega)
  · have hmod : (s + 1) * numRowGroups % 2 ^ 64 = (s + 1) * numRowGroups - 2 ^ 64 := by
      rw [Nat.mod_eq_sub_mod (by omega), Nat.mod_eq_of_lt (by omega)]
    exact Nat.div_eq_of_lt (by omega)

/-! ### What a scan of a file in slices promises -/

/-- A chain of slice bounds from `0` to `n`. -/
structure SliceChain (n : ℕ) (bounds : List ℕ) : Prop where
  first : bounds.head? = some 0
  last : bounds.getLast? = some n
  increasing : bounds.Pairwise (· ≤ ·)

theorem SliceChain.le_last {n : ℕ} {bounds : List ℕ} (h : SliceChain n bounds) {s : ℕ} (hs : s ∈ bounds) : s ≤ n := by
  obtain ⟨front, rfl⟩ := getLast?_eq_some_iff.mp h.last
  rcases mem_append.mp hs with hfront | hlast
  · exact (pairwise_append.mp h.increasing).2.2 s hfront n mem_cons_self
  · exact (mem_singleton.mp hlast).le

section Exact

variable [LE κ] [DecidableLE κ]

variable (columnInfos : List (ColumnInfo κ))

/-- The row groups that are read for one slice of a file, by index. -/
def readsOf (path : String) (file : ParquetFile ρ κ)
    (numSlices : ℕ) (slice : ℕ × ℕ) : List ℕ :=
  slicedRowGroups columnInfos ⟨path, file, ⟨slice.1, slice.2, numSlices⟩⟩

/-- The statistics of a row group bound the values of its rows in every column. -/
def RowGroup.StatisticsCorrect (rowGroup : RowGroup ρ κ) (value : ρ → ℕ → κ) : Prop :=
  ∀ row ∈ rowGroup.rows, ∀ colId, (rowGroup.statistics colId).1 ≤ value row colId ∧
    value row colId ≤ (rowGroup.statistics colId).2

/-- A row is in one of the ranges of every column that has a filter. -/
def Satisfies (value : ρ → ℕ → κ) (row : ρ) : Prop :=
  ∀ info ∈ columnInfos, info.rangePredicates ≠ [] →
    ∃ p ∈ info.rangePredicates, p.lo ≤ value row info.colId ∧ value row info.colId ≤ p.hi

/-- Reading a file in slices is exact. -/
structure SlicesExact (file : ParquetFile ρ κ) (numSlices : ℕ) : Prop where
  /-- The slices of any chain read what one slice over the whole file reads, each row group once. -/
  partition : ∀ columnInfos path bounds, SliceChain numSlices bounds →
    (slicesOf bounds).flatMap (readsOf columnInfos path file numSlices) =
        readsOf columnInfos path file numSlices (0, numSlices) ∧
      ((slicesOf bounds).flatMap (readsOf columnInfos path file numSlices)).Nodup
  /-- A row group is skipped only if no row of it passes the filters. -/
  pruning : ∀ columnInfos path value, (∀ g ∈ file.rowGroups, g.StatisticsCorrect value) →
    ∀ (i : ℕ) rowGroup, file.rowGroups[i]? = some rowGroup →
      i ∉ readsOf columnInfos path file numSlices (0, numSlices) →
      ∀ row ∈ rowGroup.rows, ¬ Satisfies columnInfos value row
  /-- Whatever slices of whatever files a scan is given, it returns the rows of the row groups that are
      read once and in order, for any batch size and any prefetch depth. -/
  delivery : ∀ columnInfos (handles : List (ParquetFileHandle ρ κ)) (files : Iter (ParquetFileHandle ρ κ)),
    Replay files handles → ∀ maxPendingColumnReaders batchSize, 1 ≤ batchSize →
      ∃ batches, Returns (parquetScanOperator maxPendingColumnReaders batchSize
          (parquetRowGroupOperator columnInfos files)).firstDrain batches ∧
        batches.flatten = handles.flatMap fun handle =>
          (handleRowGroups columnInfos handle).flatMap RowGroup.rows

/-! ### Proofs -/

theorem interesting_sorted (file : ParquetFile ρ κ) :
    (computeInterestingRowGroups columnInfos file).Pairwise (· < ·) :=
  List.Pairwise.filter _ pairwise_lt_range

variable {file : ParquetFile ρ κ} {columnInfos : List (ColumnInfo κ)}

theorem lt_of_mem_interesting {i : ℕ}
    (h : i ∈ computeInterestingRowGroups columnInfos file) : i < file.numRowGroups :=
  mem_range.mp (mem_filter.mp h).1

/-- Over the whole file, every interesting row group is read. -/
theorem readsOf_whole {numSlices : ℕ} (hn : 1 ≤ numSlices)
    (hfits : numSlices * file.numRowGroups < 2 ^ 64) (columnInfos : List (ColumnInfo κ)) (path : String) :
    readsOf columnInfos path file numSlices (0, numSlices) = computeInterestingRowGroups columnInfos file := by
  refine filter_eq_self.mpr fun i hi => ?_
  have hlt := lt_of_mem_interesting hi
  rw [decide_eq_true_eq]
  show sliceBound 0 file.numRowGroups numSlices ≤ i ∧ i < sliceBound numSlices file.numRowGroups numSlices
  rw [sliceBound_zero, sliceBound_last hn hfits]
  exact ⟨Nat.zero_le i, hlt⟩

/-- As long as the products fit, the slices of a chain are adjacent windows. -/
theorem readsOf_chain {numSlices : ℕ}
    (hfits : numSlices * file.numRowGroups < 2 ^ 64) (columnInfos : List (ColumnInfo κ))
    (path : String) {bounds : List ℕ} (hchain : SliceChain numSlices bounds) :
    (slicesOf bounds).flatMap (readsOf columnInfos path file numSlices) =
      readsOf columnInfos path file numSlices (0, numSlices) := by
  have hmono : bounds.Pairwise fun s t =>
      sliceBound s file.numRowGroups numSlices ≤ sliceBound t file.numRowGroups numSlices :=
    List.Pairwise.imp_of_mem
      (fun _ ht hst => sliceBound_mono hst (hchain.le_last ht) hfits) hchain.increasing
  obtain ⟨rest, rfl⟩ := head?_eq_some_iff.mp hchain.first
  exact filter_windows (interesting_sorted columnInfos file)
    (fun s => sliceBound s file.numRowGroups numSlices) rest hchain.last hmono

/-- A row group with a row that passes the filters is interesting: a value of the row is between the
    bounds of a range and between the statistics, so the two overlap. -/
theorem interesting_of_satisfies [IsTrans κ (· ≤ ·)] {value : ρ → ℕ → κ} {i : ℕ} {rowGroup : RowGroup ρ κ}
    (hi : file.rowGroups[i]? = some rowGroup) (hstat : rowGroup.StatisticsCorrect value) {row : ρ}
    (hrow : row ∈ rowGroup.rows) (hsat : Satisfies columnInfos value row) :
    i ∈ computeInterestingRowGroups columnInfos file := by
  have hlt : i < file.numRowGroups := (List.getElem?_eq_some_iff.mp hi).1
  refine mem_filter.mpr ⟨mem_range.mpr hlt, ?_⟩
  rw [hi]
  refine all_eq_true.mpr fun info hinfo => ?_
  by_cases hnone : info.rangePredicates = []
  · rw [hnone, isEmpty_nil, Bool.true_or]
  · obtain ⟨p, hp, hlo, hhi⟩ := hsat info hinfo hnone
    obtain ⟨hmin, hmax⟩ := hstat row hrow info.colId
    have hoverlap : evaluateRangePredicates (rowGroup.statistics info.colId)
        info.rangePredicates = true := by
      refine any_eq_true.mpr ⟨p, hp, ?_⟩
      rw [Bool.and_eq_true, decide_eq_true_eq, decide_eq_true_eq]
      exact ⟨IsTrans.trans _ _ _ hlo hmax, IsTrans.trans _ _ _ hmin hhi⟩
    rw [hoverlap, Bool.or_true]

/-- Where a product wraps around, the slices from `0` to the wrap read row group `0`, and the slice
    from behind the wrap to the end starts at `0` once more. -/
theorem not_partition_of_wraps {numSlices : ℕ} (hn : numSlices < 2 ^ 63)
    (hwraps : 2 ^ 64 ≤ numSlices * file.numRowGroups) :
    ∃ bounds, SliceChain numSlices bounds ∧
      (slicesOf bounds).flatMap (readsOf ([] : List (ColumnInfo κ)) "" file numSlices) ≠
        readsOf [] "" file numSlices (0, numSlices) := by
  have hwrap : ∃ s < numSlices, 1 ≤ sliceBound s file.numRowGroups numSlices ∧
      sliceBound (s + 1) file.numRowGroups numSlices = 0 := exists_wrap file.countable hn hwraps
  obtain ⟨s, hs, hone, hzero⟩ := hwrap
  have hgrps : 0 < file.numRowGroups := by
    by_contra h
    rw [Nat.eq_zero_of_not_pos h, Nat.mul_zero] at hwraps
    omega
  refine ⟨[0, s, s + 1, numSlices], ⟨rfl, rfl, ?_⟩, fun heq => ?_⟩
  · simp
    omega
  · have hlen := congrArg List.length heq
    have hwhole : readsOf ([] : List (ColumnInfo κ)) "" file numSlices (s + 1, numSlices) =
        readsOf [] "" file numSlices (0, numSlices) := by
      show filter _ _ = filter _ _
      simp only [hzero, sliceBound_zero]
    have hfirst : 0 ∈ readsOf ([] : List (ColumnInfo κ)) "" file numSlices (0, s) := by
      refine mem_filter.mpr ⟨?_, ?_⟩
      · rw [computeInterestingRowGroups_of_no_predicates fun _ h => absurd h not_mem_nil]
        exact mem_range.mpr hgrps
      · rw [decide_eq_true_eq]
        exact ⟨sliceBound_zero.le, hone⟩
    have hpos := length_pos_of_mem hfirst
    simp only [slicesOf, tail_cons, zip_cons_cons, zip_nil_right, flatMap_cons,
      flatMap_nil, append_nil, length_append, hwhole] at hlen
    omega

end Exact

/-- **Slices are a partition and pruning is safe** exactly if the product of the number of slices and
    the number of row groups fits into a `size_t`. -/
theorem parquetSlices_exact_iff [LE κ] [DecidableLE κ] [IsTrans κ (· ≤ ·)] (file : ParquetFile ρ κ)
    (numSlices : ℕ) (hn : 1 ≤ numSlices) (hint : numSlices < 2 ^ 63) :
    SlicesExact file numSlices ↔ numSlices * file.numRowGroups < 2 ^ 64 := by
  constructor
  · intro h
    by_contra hwraps
    obtain ⟨bounds, hchain, hne⟩ := not_partition_of_wraps hint (Nat.le_of_not_lt hwraps)
    exact hne (h.partition [] "" bounds hchain).1
  · intro hfits
    refine ⟨?_, ?_, ?_⟩
    · intro columnInfos path bounds hchain
      rw [readsOf_chain hfits columnInfos path hchain, readsOf_whole hn hfits]
      exact ⟨rfl, (interesting_sorted columnInfos file).imp fun h => Nat.ne_of_lt h⟩
    · intro columnInfos path value hstat i rowGroup hi hskipped row hrow hsat
      rw [readsOf_whole hn hfits] at hskipped
      have hgrp := hstat rowGroup (mem_of_getElem? hi)
      exact hskipped (interesting_of_satisfies hi hgrp hrow hsat)
    · intro columnInfos handles files R maxPendingColumnReaders batchSize hb
      refine ⟨_, scanOperator_firstDrain maxPendingColumnReaders hb columnInfos R, ?_⟩
      rw [flatten_batchesLeft hb, flatMap_assoc]

/-- A file of three row groups with two rows each. -/
def threeRowGroups : ParquetFile ℕ ℕ :=
  ⟨(range 3).map fun i => ⟨[2 * i, 2 * i + 1], fun _ => (2 * i, 2 * i + 1)⟩, by decide⟩

theorem parquetSlices_exact_fourSlices : SlicesExact threeRowGroups 4 :=
  (parquetSlices_exact_iff threeRowGroups 4 (by decide) (by decide)).mpr (by decide)

/-- Three row groups in `2 ^ 63 - 1` slices: the slice over the whole file reads nothing, the first
    half of the slices reads row group `0`. -/
theorem parquetSlices_wrap_around :
    (slicesOf [0, 2 ^ 62, 2 ^ 63 - 1]).flatMap (readsOf [] "" threeRowGroups (2 ^ 63 - 1)) = [0] ∧
      readsOf [] "" threeRowGroups (2 ^ 63 - 1) (0, 2 ^ 63 - 1) = [] := by
  decide

/-! ### Writing a file and scanning its slices -/

section RoundTrip

variable {α : Type}

theorem flatMap_filter_eq {q : α → Bool} {g : α → List ρ} {l : List α} (h : ∀ a ∈ l, ¬ q a → g a = []) :
    (l.filter q).flatMap g = l.flatMap g := by
  induction l with
  | nil => rfl
  | cons a l ih =>
    have hrest := ih fun b hb => h b (mem_cons_of_mem a hb)
    by_cases ha : q a
    · rw [filter_cons_of_pos ha, flatMap_cons, flatMap_cons, hrest]
    · rw [filter_cons_of_neg ha, flatMap_cons, h a mem_cons_self ha, hrest, nil_append]

variable [Preorder κ] [DecidableLE κ] {file : ParquetFile ρ κ} {value : ρ → ℕ → κ}

open Classical in
/-- The row groups that a scan skips have no row that satisfies the predicates. -/
theorem filter_interesting (hstat : ∀ g ∈ file.rowGroups, g.StatisticsCorrect value)
    (columnInfos : List (ColumnInfo κ)) :
    (((computeInterestingRowGroups columnInfos file).filterMap (file.rowGroups[·]?)).flatMap RowGroup.rows).filter
        (Satisfies columnInfos value) = (file.rowGroups.flatMap RowGroup.rows).filter (Satisfies columnInfos value) := by
  conv_rhs => rw [← Partial.filterMap_getElem?_range file.rowGroups]
  rw [filterMap_eq_flatMap_toList, filterMap_eq_flatMap_toList, flatMap_assoc, flatMap_assoc, filter_flatMap,
    filter_flatMap]
  refine flatMap_filter_eq fun i _ hskipped => filter_eq_nil_iff.mpr fun row hrow hsat => hskipped ?_
  obtain ⟨g, hg, hrow⟩ := mem_flatMap.mp hrow
  have hi : file.rowGroups[i]? = some g := Option.mem_toList.mp hg
  exact (mem_filter.mp (interesting_of_satisfies hi (hstat g (mem_of_getElem? hi)) hrow (of_decide_eq_true hsat))).2

open Classical in
/-- **Writing, slicing and scanning.**  If no empty batch comes while no row is pending, what workers
    read from the slices of the written file, filtered by the predicates that were pushed into the
    scans, are the filtered rows.  The scans return once their `ParquetFileOperator`s have opened the
    file and completed the prefetching. -/
theorem parquet_roundTrip (convert : α → List ρ) {u : Iter α} {values : List α}
    {conf : Iter WriterConfig} {config : WriterConfig} {configs : List WriterConfig}
    (R : Replay u values) (C : Replay conf (config :: configs)) :
    ∃ (s' : MaterializeParquetState u.logged.State conf.State ρ) (groups : List (List ρ)),
      Returns ((materializeParquetOperator (valueToRecordBatchOperator convert u.logged) conf).next
        ⟨u.logged.fresh, conf.fresh, false, []⟩) (some (config.filename, 0, 1, 1), s') ∧
      s'.files = [⟨config.filesystem, config.filename, groups⟩] ∧
      (NeverIdle config.target 0 (values.map fun v => (convert v).length) →
        ∀ (file : ParquetFile ρ κ) (value : ρ → ℕ → κ), file.rowGroups.map RowGroup.rows = groups →
        (∀ g ∈ file.rowGroups, g.StatisticsCorrect value) →
        ∀ numSlices bounds, 1 ≤ numSlices → numSlices * file.numRowGroups < 2 ^ 64 →
        SliceChain numSlices bounds → ∀ columnInfos, ∃ batches : ℕ × ℕ → List (List ρ),
          (∀ slice, Returns (makeParquetScanOperator columnInfos (parquetFileOperator
            [⟨config.filename, file, ⟨slice.1, slice.2, numSlices⟩⟩] true)).firstDrain
              (batches slice)) ∧
          ((slicesOf bounds).flatMap fun slice => (batches slice).flatten).filter
              (Satisfies columnInfos value) =
            (values.flatMap convert).filter (Satisfies columnInfos value)) := by
  obtain ⟨s', hnext, hfiles, -⟩ := materializeParquet_next convert R C
  refine ⟨s', _, hnext, hfiles, fun hidle file value hgrps hstat numSlices bounds hn hfits hchain columnInfos => ?_⟩
  refine ⟨fun slice => scanBatches columnInfos [⟨config.filename, file, ⟨slice.1, slice.2, numSlices⟩⟩],
    fun _ => parquetScan_firstDrain columnInfos (parquetFileReplay _), ?_⟩
  have hrows : file.rowGroups.flatMap RowGroup.rows = values.flatMap convert := by
    have hends := (rowGroups_ends_iff config.target [] (values.map convert)).mpr (by rwa [map_map])
    rw [flatMap_def, hgrps, (rowGroups_complete config.target [] _ hends).1, nil_append, flatMap_def]
  have hscans : ((slicesOf bounds).flatMap fun slice =>
      (scanBatches columnInfos [⟨config.filename, file, ⟨slice.1, slice.2, numSlices⟩⟩]).flatten) =
      ((computeInterestingRowGroups columnInfos file).filterMap (file.rowGroups[·]?)).flatMap RowGroup.rows := by
    rw [← readsOf_whole hn hfits columnInfos config.filename, ← readsOf_chain hfits columnInfos config.filename hchain,
      filterMap_eq_flatMap_toList, flatMap_assoc, flatMap_assoc]
    refine flatMap_congr fun slice _ => ?_
    rw [flatten_scanBatches, flatMap_singleton, handleRowGroups, filterMap_eq_flatMap_toList, flatMap_assoc]
    rfl
  rw [hscans, filter_interesting hstat, hrows]

end RoundTrip

end Jitq.Runtime

import Jitq.Operators.Split
import Mathlib.Logic.Function.Basic
import Mathlib.Tactic.FinCases

namespace Jitq.Operators

open Fuel Pull List Function Option

/-! # Splitting arrays

`SplitRowDataOperator` and `SplitColumnDataOperator` cut the windows of their arrays into slices, which
`RowScanOperator` and `ColumnScanOperator` read in another worker.

* `scan_returns_iff` — a scan returns what it looks up, and it returns at all only if no index is outside the data;
* `scansSlices_iff` — the slices of a window are scanned to what the whole window is scanned to, whatever the
  number of slices;
* `splitData_reads_iff` — rows are read completely.  Columns are all read at the offset of the first one, before
  and after the split, so what is read is their own window only where the offsets agree. -/

variable {τ ρ : Type}

/-! ### What a scan returns -/

variable {n : ℕ}

section Scanned

variable (offset shape : τ → ℕ) (lookup : τ → ℕ → Option ρ)

/-- No index of the window is outside the data. -/
def WindowInside (x : τ) : Prop := ∀ t < shape x, (lookup x (offset x + t)).isSome

/-- The rows of a window. -/
def scanned (x : τ) : List ρ := (range' (offset x) (shape x)).filterMap (lookup x)

variable {offset shape lookup}

theorem WindowInside.scanRows {x : τ} (h : WindowInside offset shape lookup x) :
    ScanRows offset shape lookup x (scanned offset shape lookup x) := by
  have hsome : ∀ i ∈ range' (offset x) (shape x), (lookup x i).isSome := by
    intro i hi
    obtain ⟨hle, hlt⟩ := mem_range'_1.mp hi
    have ht := h (i - offset x) (by omega)
    rwa [Nat.add_sub_cancel' hle] at ht
  unfold ScanRows scanned
  generalize range' (offset x) (shape x) = is at hsome
  induction is with
  | nil => exact .nil
  | cons i is ih =>
    obtain ⟨r, hr⟩ := isSome_iff_exists.mp (hsome i mem_cons_self)
    rw [filterMap_cons_some hr]
    exact .cons hr (ih fun i hi => hsome i (mem_cons_of_mem _ hi))

theorem ScanRows.length_eq {x : τ} {rows : List ρ} (h : ScanRows offset shape lookup x rows) :
    rows.length = shape x := by
  have hlen := List.Forall₂.length_eq h
  rw [length_range'] at hlen
  exact hlen.symm

theorem ScanRows.getElem? {x : τ} {rows : List ρ} (h : ScanRows offset shape lookup x rows) {t : ℕ}
    (ht : t < shape x) : rows[t]? = lookup x (offset x + t) := by
  have hlen := h.length_eq
  have hget := (forall₂_iff_get.mp h).2 t (by simpa using ht) (by omega)
  rw [getElem?_eq_getElem (by omega)]
  simpa using hget.symm

/-- What one round of a scan over a list can do. -/
theorem scanRound_cases {xs : List τ} {s : ScanState (List τ) τ}
    {r : ScanState (List τ) τ ⊕ (Option ρ × ScanState (List τ) τ)}
    (h : scanRound offset shape lookup (Iter.ofList xs) s n = some r) :
    (s.lastIndex ≤ s.currentIndex ∧ s.upstream = [] ∧ r = .inr (none, { s with upstream := [] })) ∨
      (∃ x rest, s.lastIndex ≤ s.currentIndex ∧ s.upstream = x :: rest ∧
        r = .inl ⟨rest, offset x, offset x + shape x, some x⟩) ∨
      ∃ x row, s.currentIndex < s.lastIndex ∧ s.values = some x ∧ lookup x s.currentIndex = some row ∧
        r = .inr (some row, { s with currentIndex := s.currentIndex + 1 }) := by
  unfold scanRound at h
  split at h
  · rename_i hge
    cases hup : s.upstream with
    | nil =>
      rw [hup] at h
      exact .inl ⟨hge, rfl, (some.inj h).symm⟩
    | cons x rest =>
      rw [hup] at h
      exact .inr (.inl ⟨x, rest, hge, rfl, (some.inj h).symm⟩)
  · rename_i hlt
    obtain ⟨row, hrow, hr⟩ := bind_eq_some_iff.mp h
    cases hlook : s.values.bind fun x => lookup x s.currentIndex with
    | none =>
      rw [hlook] at hrow
      cases hrow
    | some row' =>
      rw [hlook] at hrow
      obtain rfl : row' = row := some.inj hrow
      obtain ⟨x, hx, hrow'⟩ := bind_eq_some_iff.mp hlook
      exact .inr (.inr ⟨x, row', not_le.mp hlt, hx, hrow', (some.inj hr).symm⟩)

variable (offset shape lookup) in
/-- A lookup of the scan fails before it comes to the end of its input. -/
def ScanState.ReadsOutside (s : ScanState (List τ) τ) : Prop :=
  (∃ x i, s.values = some x ∧ s.currentIndex ≤ i ∧ i < s.lastIndex ∧ lookup x i = none) ∨
    ∃ x ∈ s.upstream, ¬ WindowInside offset shape lookup x

theorem scan_endless (xs : List τ) : Endless (scanOperator offset shape lookup (Iter.ofList xs))
    (ScanState.ReadsOutside offset shape lookup) where
  next := by
    intro s n r s' hs hnext
    refine iterate_invariant (P := ScanState.ReadsOutside offset shape lookup)
      (Q := fun out => out.1.isSome ∧ out.2.ReadsOutside offset shape lookup) (fun s out hs hround => ?_) hs hnext
    obtain ⟨hge, hup, -⟩ | ⟨x, rest, hge, hup, hr⟩ | ⟨x, row, hlt, hx, hrow, hr⟩ := scanRound_cases hround
    · -- the end of the input is not reached
      obtain ⟨y, i, -, hle, hlt, -⟩ | ⟨y, hy, -⟩ := hs
      · omega
      · rw [hup] at hy
        cases hy
    · cases hr
      -- the window just read is the one outside, or one of those that are left
      obtain ⟨y, i, -, hle, hlt, -⟩ | ⟨y, hy, hout⟩ := hs
      · omega
      · rw [hup] at hy
        obtain rfl | hy := mem_cons.mp hy
        · unfold WindowInside at hout
          push Not at hout
          obtain ⟨t, ht, hnone⟩ := hout
          exact .inl ⟨y, offset y + t, rfl, Nat.le_add_right _ _, Nat.add_lt_add_left ht _, by simpa using hnone⟩
        · exact .inr ⟨y, hy, hout⟩
    · cases hr
      refine ⟨rfl, ?_⟩
      obtain ⟨y, i, hy, hle, hlt', hnone⟩ | hrest := hs
      · obtain rfl : x = y := some.inj (hx.symm.trans hy)
        have hne : s.currentIndex ≠ i := by
          rintro rfl
          exact nomatch hrow.symm.trans hnone
        exact .inl ⟨x, i, hy, by show s.currentIndex + 1 ≤ i; omega, hlt', hnone⟩
      · exact .inr hrest

/-- **What a scan returns.**  All windows are inside the data, and the rows are those of the windows in order. -/
theorem scan_returns_iff (xs : List τ) (rows : List ρ) :
    Returns (scanOperator offset shape lookup (Iter.ofList xs)).firstDrain rows ↔
      (∀ x ∈ xs, WindowInside offset shape lookup x) ∧ rows = xs.flatMap (scanned offset shape lookup) := by
  have hscan : (∀ x ∈ xs, WindowInside offset shape lookup x) →
      Returns (scanOperator offset shape lookup (Iter.ofList xs)).firstDrain
        (xs.flatMap (scanned offset shape lookup)) := by
    intro hin
    exact (scanReplay (Replay.ofList xs) (scanned offset shape lookup) fun x hx => (hin x hx).scanRows).reopens.first
  constructor
  · intro hret
    by_cases hin : ∀ x ∈ xs, WindowInside offset shape lookup x
    · exact ⟨hin, hret.unique (hscan hin)⟩
    · push Not at hin
      obtain ⟨x, hx, hout⟩ := hin
      have hopen : Returns ((scanOperator offset shape lookup (Iter.ofList xs)).open_
          (scanOperator offset shape lookup (Iter.ofList xs)).fresh) ⟨xs, 0, 0, none⟩ :=
        (Returns.pure _).bind (.pure _)
      exact absurd hret ((scan_endless xs).not_returns_firstDrain hopen (.inr ⟨x, hx, hout⟩) rows)
  · rintro ⟨hin, rfl⟩
    exact hscan hin

end Scanned

/-! ### Slices of a window -/

variable (size sliceNum numSlices : ℕ)

/-- `ComputeFirstIndex` of the two operators, in `size_t` arithmetic. -/
def computeFirstIndex : ℕ := sliceNum * size % 2 ^ 64 / numSlices

/-- `ComputeLastIndex` of the two operators. -/
def computeLastIndex : ℕ := computeFirstIndex size (sliceNum + 1) numSlices

/-- `offset + first_idx`, as a `size_t`. -/
def sliceOffset (offset size sliceNum numSlices : ℕ) : ℕ :=
  (offset + computeFirstIndex size sliceNum numSlices) % 2 ^ 64

/-- `last_idx - first_idx`, as a `size_t`. -/
def sliceShape : ℕ :=
  (computeLastIndex size sliceNum numSlices + (2 ^ 64 - computeFirstIndex size sliceNum numSlices)) % 2 ^ 64

section Indexes

variable {size n k : ℕ}

section

variable (hfits : n * size < 2 ^ 64)

include hfits

theorem computeFirstIndex_of_le (hk : k ≤ n) : computeFirstIndex size k n = k * size / n := by
  have hle : k * size ≤ n * size := Nat.mul_le_mul_right size hk
  rw [computeFirstIndex, Nat.mod_eq_of_lt (by omega)]

theorem computeFirstIndex_le_computeLastIndex (hk : k < n) :
    computeFirstIndex size k n ≤ computeLastIndex size k n := by
  rw [computeLastIndex, computeFirstIndex_of_le hfits hk.le, computeFirstIndex_of_le hfits hk]
  exact Nat.div_le_div_right (Nat.mul_le_mul_right size (Nat.le_succ k))

theorem computeFirstIndex_le_size (hn : 0 < n) (hk : k ≤ n) : computeFirstIndex size k n ≤ size := by
  rw [computeFirstIndex_of_le hfits hk]
  calc k * size / n ≤ n * size / n := Nat.div_le_div_right (Nat.mul_le_mul_right size hk)
    _ = size := Nat.mul_div_cancel_left size hn

theorem computeFirstIndex_last (hn : 0 < n) : computeFirstIndex size n n = size := by
  rw [computeFirstIndex_of_le hfits le_rfl, Nat.mul_div_cancel_left size hn]

end

theorem computeFirstIndex_zero : computeFirstIndex size 0 n = 0 := by simp [computeFirstIndex]

theorem size_lt (hfits : n * size < 2 ^ 64) (hn : 0 < n) : size < 2 ^ 64 :=
  lt_of_le_of_lt (Nat.le_mul_of_pos_left size hn) hfits

theorem sliceShape_eq (hfits : n * size < 2 ^ 64) (hk : k < n) :
    sliceShape size k n = computeLastIndex size k n - computeFirstIndex size k n := by
  have hn : 0 < n := by omega
  have hle := computeFirstIndex_le_computeLastIndex hfits hk
  have hlast : computeLastIndex size k n ≤ size := computeFirstIndex_le_size hfits hn hk
  have hsize := size_lt hfits hn
  rw [sliceShape]
  omega

theorem sliceOffset_eq {offset : ℕ} (hfits : n * size < 2 ^ 64) (hn : 0 < n) (hk : k ≤ n)
    (hoff : offset + size < 2 ^ 64) :
    sliceOffset offset size k n = offset + computeFirstIndex size k n := by
  have hle := computeFirstIndex_le_size hfits hn hk
  rw [sliceOffset, Nat.mod_eq_of_lt (by omega)]

/-- The part of a list that belongs to one slice. -/
def cutSlice (rows : List ρ) (k n : ℕ) : List ρ :=
  (rows.drop (computeFirstIndex rows.length k n)).take (sliceShape rows.length k n)

/-- The slices telescope: after `k` of them, the list is read up to the first index of the next one. -/
theorem flatMap_cutSlice (rows : List ρ) (hfits : n * rows.length < 2 ^ 64) (hn : 0 < n) :
    (range n).flatMap (cutSlice rows · n) = rows := by
  have hfirst : ∀ k ≤ n, (range k).flatMap (cutSlice rows · n) =
      rows.take (computeFirstIndex rows.length k n) := by
    intro k
    induction k with
    | zero =>
      intro _
      rw [computeFirstIndex_zero]
      rfl
    | succ k ih =>
      intro hk
      have hle := computeFirstIndex_le_computeLastIndex hfits hk
      have hcut : computeFirstIndex rows.length (k + 1) n =
          computeFirstIndex rows.length k n + sliceShape rows.length k n := by
        rw [sliceShape_eq hfits hk]
        exact (Nat.add_sub_cancel' hle).symm
      rw [range_succ, flatMap_append, ih (by omega), hcut, take_add, flatMap_singleton, cutSlice]
  rw [hfirst n le_rfl, computeFirstIndex_last hfits hn, take_length]

end Indexes

section Slices

variable (offset shape : τ → ℕ) (lookup : τ → ℕ → Option ρ) (slice : τ → ℕ → ℕ → τ)

/-- `slice` moves the window and keeps the data. -/
structure CutsWindow : Prop where
  offset : ∀ x k n, offset (slice x k n) = sliceOffset (offset x) (shape x) k n
  shape : ∀ x k n, shape (slice x k n) = sliceShape (shape x) k n
  lookup : ∀ x k n i, lookup (slice x k n) i = lookup x i

/-- `SplitRowDataOperator` and `SplitColumnDataOperator`; a division by zero slices traps. -/
def splitDataOperator (mainUpstream : Iter τ) (dopUpstream : Iter ℕ) : Iter τ :=
  splitOperator (fun x k n => if n = 0 then none else some (slice x k n)) mainUpstream dopUpstream

/-- The scan of the inputs returns `rows`, and so do the scans of their slices together. -/
def ScansSlices (xs : List τ) (n : ℕ) (rows : List ρ) : Prop :=
  Returns (scanOperator offset shape lookup (Iter.ofList xs)).firstDrain rows ∧
    ∃ slices rowss, Returns (splitDataOperator slice (Iter.ofList xs) (Iter.ofList [n])).firstDrain slices ∧
      slices.length = xs.length * n ∧
      List.Forall₂ (fun x rs => Returns (scanOperator offset shape lookup (Iter.ofList [x])).firstDrain rs)
        slices rowss ∧
      rowss.flatten = rows

variable {offset shape lookup slice}

section

variable (hcut : CutsWindow offset shape lookup slice) {x : τ} {n k : ℕ}
    (h : WindowInside offset shape lookup x) (hoff : offset x + shape x < 2 ^ 64)
    (hfits : n * shape x < 2 ^ 64) (hk : k < n)

include hcut h hoff hfits hk

theorem WindowInside.cut : WindowInside offset shape lookup (slice x k n) := by
  have hn : 0 < n := by omega
  have hlast : computeLastIndex (shape x) k n ≤ shape x := computeFirstIndex_le_size hfits hn hk
  intro t ht
  rw [hcut.shape, sliceShape_eq hfits hk] at ht
  rw [hcut.offset, hcut.lookup, sliceOffset_eq hfits hn hk.le hoff, Nat.add_assoc]
  exact h _ (by omega)

/-- The rows of a slice are that part of the rows. -/
theorem scanned_slice : scanned offset shape lookup (slice x k n) = cutSlice (scanned offset shape lookup x) k n := by
  have hn : 0 < n := by omega
  have hlast : computeLastIndex (shape x) k n ≤ shape x := computeFirstIndex_le_size hfits hn hk
  have hrows := h.scanRows
  have hslice := (h.cut hcut hoff hfits hk).scanRows
  have hlen := hrows.length_eq
  have hlen' := hslice.length_eq
  rw [hcut.shape] at hlen'
  have hshape := sliceShape_eq hfits hk
  apply ext_getElem?
  intro t
  rw [cutSlice, hlen]
  by_cases ht : t < sliceShape (shape x) k n
  · rw [hslice.getElem? (by rw [hcut.shape]; exact ht), hcut.lookup, hcut.offset,
      sliceOffset_eq hfits hn hk.le hoff, getElem?_take_of_lt ht, getElem?_drop,
      hrows.getElem? (by omega), Nat.add_assoc]
  · rw [getElem?_eq_none (by omega), getElem?_eq_none]
    rw [length_take, length_drop, hlen]
    omega

end

theorem forall₂_flatMap_range {A B : Type} {R : A → B → Prop} {f : τ → ℕ → A} {g : τ → ℕ → B} {xs : List τ}
    (h : ∀ x ∈ xs, ∀ k < n, R (f x k) (g x k)) :
    List.Forall₂ R (xs.flatMap fun x => (range n).map (f x)) (xs.flatMap fun x => (range n).map (g x)) := by
  induction xs with
  | nil => exact .nil
  | cons x xs ih =>
    have hx : List.Forall₂ R ((range n).map (f x)) ((range n).map (g x)) := by
      rw [forall₂_map_left_iff, forall₂_map_right_iff, forall₂_same]
      intro k hk
      exact h x mem_cons_self k (mem_range.mp hk)
    exact rel_append hx (ih fun y hy => h y (mem_cons_of_mem x hy))

/-- **Slices are scanned to the whole.**  The scans of the slices return together what the scan of the inputs
    returns, and only an input outside of its data is not scanned. -/
theorem scansSlices_iff (hcut : CutsWindow offset shape lookup slice) {xs : List τ} (hn : 0 < n)
    (hoff : ∀ x ∈ xs, offset x + shape x < 2 ^ 64) (hfits : ∀ x ∈ xs, n * shape x < 2 ^ 64) (rows : List ρ) :
    ScansSlices offset shape lookup slice xs n rows ↔
      (∀ x ∈ xs, WindowInside offset shape lookup x) ∧ rows = xs.flatMap (scanned offset shape lookup) := by
  constructor
  · rintro ⟨hscan, -⟩
    exact (scan_returns_iff xs rows).mp hscan
  · rintro ⟨hin, rfl⟩
    refine ⟨(scan_returns_iff xs _).mpr ⟨hin, rfl⟩, _, xs.flatMap fun x => (range n).map
      (cutSlice (scanned offset shape lookup x) · n), (splitReplay (Replay.ofList xs) (Replay.ofList [n]) hn
        (fun x k => slice x k n) fun x _ k _ => if_neg hn.ne').reopens.first, ?_, ?_, ?_⟩
    · simp
    · apply forall₂_flatMap_range
      intro x hx k hk
      rw [scan_returns_iff]
      constructor
      · intro y hy
        rw [mem_singleton.mp hy]
        exact (hin x hx).cut hcut (hoff x hx) (hfits x hx) hk
      · rw [flatMap_singleton, scanned_slice hcut (hin x hx) (hoff x hx) (hfits x hx) hk]
    · have hwhole : ∀ x ∈ xs, (range n).flatMap (cutSlice (scanned offset shape lookup x) · n) =
          scanned offset shape lookup x := by
        intro x hx
        apply flatMap_cutSlice _ _ hn
        rw [(hin x hx).scanRows.length_eq]
        exact hfits x hx
      rw [flatten_eq_flatMap, flatMap_assoc]
      refine flatMap_congr fun x hx => ?_
      rw [flatMap_map]
      exact hwhole x hx

end Slices

/-! ### Arrays -/

/-- An array of one dimension as the generated code has it: a window of `shape` items at `offset` of the `outerShape`
    items behind the data pointer. -/
structure ArrayView (V : Type) where
  data : List V
  outerShape : ℕ
  offset : ℕ
  shape : ℕ

/-- The window of an array is inside its data, whose size is a `size_t`. -/
structure ArrayView.Valid {V : Type} (a : ArrayView V) : Prop where
  outer : a.outerShape = a.data.length
  window : a.offset + a.shape ≤ a.outerShape
  size : a.outerShape < 2 ^ 64

/-- The items of an array. -/
def ArrayView.items {V : Type} (a : ArrayView V) : List V := (a.data.drop a.offset).take a.shape

theorem ArrayView.Valid.length_items {V : Type} {a : ArrayView V} (h : a.Valid) : a.items.length = a.shape := by
  have hwindow := h.window
  rw [h.outer] at hwindow
  rw [ArrayView.items, length_take, length_drop]
  omega

theorem ArrayView.items_getElem? {V : Type} (a : ArrayView V) {t : ℕ} (ht : t < a.shape) :
    a.items[t]? = a.data[a.offset + t]? := by
  rw [ArrayView.items, getElem?_take_of_lt ht, getElem?_drop]

theorem ArrayView.Valid.isSome {V : Type} {a : ArrayView V} (h : a.Valid) {t : ℕ} (ht : t < a.shape) :
    (a.data[a.offset + t]?).isSome := by
  have hwindow := h.window
  rw [h.outer] at hwindow
  rw [getElem?_eq_getElem (by omega)]
  rfl

/-- `MakeResulTuple`: with `kAddIndex` the index, as a `long`, comes before the fields. -/
def makeResultTuple {R : Type} (addIndex : Bool) (index : ℕ) (tuple : R) : Option ℤ × R :=
  (if addIndex then some (wrap64 index) else none, tuple)

/-! ### SplitRowData and RowScan -/

section Rows

variable {V : Type} (addIndex : Bool)

/-- `RowScanOperator::BuildResultTuple`. -/
def buildResultTuple (a : ArrayView V) (index : ℕ) : Option (Option ℤ × V) :=
  (a.data[index]?).map (makeResultTuple addIndex index)

/-- The tuple that `SplitRowDataOperator::next` returns for one slice. -/
def rowSlice (a : ArrayView V) (k n : ℕ) : ArrayView V :=
  ⟨a.data, a.outerShape, sliceOffset a.offset a.shape k n, sliceShape a.shape k n⟩

/-- `RowScanOperator` returns, of the inputs and of the slices of `SplitRowDataOperator`, the items of the arrays. -/
def RowsRead (xs : List (ArrayView V)) (n : ℕ) : Prop :=
  ∃ rows, ScansSlices ArrayView.offset ArrayView.shape (buildResultTuple addIndex) rowSlice xs n rows ∧
    rows.map Prod.snd = xs.flatMap ArrayView.items

theorem cutsWindow_rowSlice :
    CutsWindow ArrayView.offset ArrayView.shape (buildResultTuple addIndex) (rowSlice (V := V)) :=
  ⟨fun _ _ _ => rfl, fun _ _ _ => rfl, fun _ _ _ _ => rfl⟩

theorem rowsRead {xs : List (ArrayView V)} (hn : 0 < n) (hxs : ∀ x ∈ xs, x.Valid)
    (hfits : ∀ x ∈ xs, n * x.shape < 2 ^ 64) : RowsRead addIndex xs n := by
  have hin : ∀ x ∈ xs, WindowInside ArrayView.offset ArrayView.shape (buildResultTuple addIndex) x := by
    intro x hx t ht
    rw [buildResultTuple, isSome_map]
    exact (hxs x hx).isSome ht
  have hoff : ∀ x ∈ xs, x.offset + x.shape < 2 ^ 64 := fun x hx =>
    lt_of_le_of_lt (hxs x hx).window (hxs x hx).size
  refine ⟨_, (scansSlices_iff (cutsWindow_rowSlice addIndex) hn hoff hfits _).mpr ⟨hin, rfl⟩, ?_⟩
  rw [map_flatMap]
  refine flatMap_congr fun x hx => ?_
  have hrows := (hin x hx).scanRows
  apply ext_getElem?
  intro t
  rw [getElem?_map]
  by_cases ht : t < x.shape
  · rw [hrows.getElem? ht, x.items_getElem? ht, buildResultTuple, Option.map_map]
    exact Option.map_id'
  · rw [getElem?_eq_none (by rw [hrows.length_eq]; omega),
      getElem?_eq_none (by rw [(hxs x hx).length_items]; omega), map_none]

end Rows

/-! ### SplitColumnData and ColumnScan -/

section Columns

variable {m : ℕ} {V : Fin (m + 1) → Type} (addIndex : Bool)

local instance (priority := 2000) neZeroColumns : @NeZero ℕ Zero.ofOfNat0 (m + 1) := Nat.instNeZeroSucc

/-- `ColumnScanOperator::Lookup`: the item of every column at one index. -/
def lookupColumns (x : ∀ j, ArrayView (V j)) (index : ℕ) : Option (Option ℤ × ∀ j, V j) :=
  if h : ∀ j, index < (x j).data.length then
    some (makeResultTuple addIndex index fun j => (x j).data.get ⟨index, h j⟩)
  else none

/-- The tuple that `SplitColumnDataOperator::next` returns for one slice.  `MakeColumnSlices` gives every column
    its own data, and the outer shape, offset and shape of the first one. -/
def columnSlice (x : ∀ j, ArrayView (V j)) (k n : ℕ) : ∀ j, ArrayView (V j) := fun j =>
  ⟨(x j).data, (x 0).outerShape, sliceOffset (x 0).offset (x 0).shape k n, sliceShape (x 0).shape k n⟩

/-- The arrays of one tuple are valid and of the same shape. -/
structure ColumnsValid (x : ∀ j, ArrayView (V j)) : Prop where
  valid : ∀ j, (x j).Valid
  shape : ∀ j, (x j).shape = (x 0).shape

/-- `ColumnScanOperator` returns, of the inputs and of the slices of `SplitColumnDataOperator`, the items of the
    arrays in each column. -/
def ColumnsRead (xs : List (∀ j, ArrayView (V j))) (n : ℕ) : Prop :=
  ∃ rows, ScansSlices (fun x => (x 0).offset) (fun x => (x 0).shape) (lookupColumns addIndex) columnSlice xs n rows ∧
    ∀ j, rows.map (fun r => r.2 j) = xs.flatMap fun x => (x j).items

/-- Every column holds, at the offset of the first one, the items of its own window. -/
def SameItems (x : ∀ j, ArrayView (V j)) : Prop :=
  ∀ j, ∀ t < (x 0).shape, (x j).data[(x 0).offset + t]? = (x j).data[(x j).offset + t]?

theorem cutsWindow_columnSlice : CutsWindow (fun x : ∀ j, ArrayView (V j) => (x 0).offset) (fun x => (x 0).shape)
    (lookupColumns addIndex) columnSlice :=
  ⟨fun _ _ _ => rfl, fun _ _ _ => rfl, fun _ _ _ _ => rfl⟩

variable {addIndex} {x : ∀ j, ArrayView (V j)}

theorem lookupColumns_isSome {index : ℕ} :
    (lookupColumns addIndex x index).isSome ↔ ∀ j, ((x j).data[index]?).isSome := by
  unfold lookupColumns
  split <;> simp_all

theorem lookupColumns_field {index : ℕ} (h : (lookupColumns addIndex x index).isSome)
    (j : Fin (m + 1)) : (lookupColumns addIndex x index).map (fun r => r.2 j) = (x j).data[index]? := by
  unfold lookupColumns at h ⊢
  split at h
  · rename_i hin
    rw [dif_pos hin, getElem?_eq_getElem (hin j)]
    rfl
  · cases h

variable (addIndex) in
/-- One tuple: the window of the first column is inside all columns and gives the items of each of them. -/
theorem sameItems_iff (hx : ColumnsValid x) : SameItems x ↔
    WindowInside (fun x => (x 0).offset) (fun x => (x 0).shape) (lookupColumns addIndex) x ∧
      ∀ j, (scanned (fun x => (x 0).offset) (fun x => (x 0).shape) (lookupColumns addIndex) x).map (fun r => r.2 j) =
        (x j).items := by
  constructor
  · intro hsame
    have hin : WindowInside (fun x => (x 0).offset) (fun x => (x 0).shape) (lookupColumns addIndex) x := by
      intro t ht
      rw [lookupColumns_isSome]
      intro j
      rw [hsame j t ht]
      exact (hx.valid j).isSome (by rw [hx.shape j]; exact ht)
    refine ⟨hin, fun j => ext_getElem? fun t => ?_⟩
    have hrows := hin.scanRows
    rw [getElem?_map]
    by_cases ht : t < (x 0).shape
    · rw [hrows.getElem? ht, lookupColumns_field (hin t ht) j, hsame j t ht,
        (x j).items_getElem? (by rw [hx.shape j]; exact ht)]
    · rw [getElem?_eq_none (by rw [hrows.length_eq]; omega),
        getElem?_eq_none (by rw [(hx.valid j).length_items, hx.shape j]; omega), map_none]
  · rintro ⟨hin, hitems⟩ j t ht
    have hget := congrArg (fun l => l[t]?) (hitems j)
    simp only [getElem?_map] at hget
    rwa [hin.scanRows.getElem? ht, lookupColumns_field (hin t ht) j,
      (x j).items_getElem? (by rw [hx.shape j]; exact ht)] at hget

theorem flatMap_inj_of_length {A B : Type} {f g : A → List B} {xs : List A}
    (hlen : ∀ x ∈ xs, (f x).length = (g x).length) (h : xs.flatMap f = xs.flatMap g) : ∀ x ∈ xs, f x = g x := by
  induction xs with
  | nil => exact fun x hx => nomatch hx
  | cons x xs ih =>
    obtain ⟨hhead, htail⟩ := append_inj h (hlen x mem_cons_self)
    exact forall_mem_cons.mpr ⟨hhead, ih (fun y hy => hlen y (mem_cons_of_mem x hy)) htail⟩

theorem columnsRead_iff {xs : List (∀ j, ArrayView (V j))} (hn : 0 < n) (hxs : ∀ x ∈ xs, ColumnsValid x)
    (hfits : ∀ x ∈ xs, n * (x 0).shape < 2 ^ 64) : ColumnsRead addIndex xs n ↔ ∀ x ∈ xs, SameItems x := by
  have hoff : ∀ x ∈ xs, (x 0).offset + (x 0).shape < 2 ^ 64 := fun x hx =>
    lt_of_le_of_lt ((hxs x hx).valid 0).window ((hxs x hx).valid 0).size
  have hscans := scansSlices_iff (cutsWindow_columnSlice addIndex) hn hoff hfits
  constructor
  · rintro ⟨rows, hrows, hitems⟩ x hx
    obtain ⟨hin, rfl⟩ := (hscans rows).mp hrows
    rw [sameItems_iff addIndex (hxs x hx)]
    refine ⟨hin x hx, fun j => ?_⟩
    have hj := hitems j
    rw [map_flatMap] at hj
    -- the parts of the tuples have the same lengths on both sides, so they can be compared one by one
    refine flatMap_inj_of_length (fun y hy => ?_) hj x hx
    rw [length_map, (hin y hy).scanRows.length_eq, ((hxs y hy).valid j).length_items, (hxs y hy).shape j]
  · intro hsame
    have hall := fun x hx => (sameItems_iff addIndex (hxs x hx)).mp (hsame x hx)
    refine ⟨_, (hscans _).mpr ⟨fun x hx => (hall x hx).1, rfl⟩, fun j => ?_⟩
    rw [map_flatMap]
    exact flatMap_congr fun x hx => (hall x hx).2 j

/-- Two tuples of columns that may differ in their data only. -/
def SameLayout (x y : ∀ j, ArrayView (V j)) : Prop :=
  ∀ j, (y j).outerShape = (x j).outerShape ∧ (y j).offset = (x j).offset ∧ (y j).shape = (x j).shape

/-- The windows of all columns start where that of the first one does. -/
def OffsetsAgree (x : ∀ j, ArrayView (V j)) : Prop := ∀ j, (x 0).shape = 0 ∨ (x j).offset = (x 0).offset

theorem OffsetsAgree.sameItems (h : OffsetsAgree x) : SameItems x := by
  intro j t ht
  obtain hempty | hoff := h j
  · omega
  · rw [hoff]

theorem OffsetsAgree.congr {x y : ∀ j, ArrayView (V j)} (h : OffsetsAgree x) (hxy : SameLayout x y) :
    OffsetsAgree y := by
  intro j
  rw [(hxy j).2.1, (hxy 0).2.1, (hxy 0).2.2]
  exact h j

/-- The array `x j` with the item `b` at its offset, and `a` everywhere else. -/
def markOffset (x : ∀ j, ArrayView (V j)) (j : Fin (m + 1)) (a b : V j) : ∀ j, ArrayView (V j) :=
  update x j { x j with data := (replicate (x j).outerShape a).set (x j).offset b }

theorem sameLayout_markOffset (x : ∀ j, ArrayView (V j)) (j : Fin (m + 1)) (a b : V j) :
    SameLayout x (markOffset x j a b) := by
  intro i
  by_cases hi : i = j
  · subst hi
    simp [markOffset]
  · simp [markOffset, update_of_ne hi]

theorem ColumnsValid.markOffset (h : ColumnsValid x) (j : Fin (m + 1)) (a b : V j) :
    ColumnsValid (markOffset x j a b) where
  valid i := by
    obtain ⟨houter, hoff, hshape⟩ := sameLayout_markOffset x j a b i
    refine ⟨?_, by rw [houter, hoff, hshape]; exact (h.valid i).window, by rw [houter]; exact (h.valid i).size⟩
    rw [houter]
    by_cases hi : i = j
    · subst hi
      simp [Operators.markOffset]
    · simpa [Operators.markOffset, update_of_ne hi] using (h.valid i).outer
  shape i := by
    rw [(sameLayout_markOffset x j a b i).2.2, (sameLayout_markOffset x j a b 0).2.2]
    exact h.shape i

/-- A column that does not start where the first one does can hold data that is not read. -/
theorem not_sameItems_markOffset (hx : ColumnsValid x) {j : Fin (m + 1)} {a b : V j}
    (hab : a ≠ b) (hshape : (x 0).shape ≠ 0) (hoff : (x j).offset ≠ (x 0).offset) :
    ¬ SameItems (markOffset x j a b) := by
  intro hsame
  have hj : (0 : Fin (m + 1)) ≠ j := by
    rintro rfl
    exact hoff rfl
  have hzero : markOffset x j a b 0 = x 0 := update_of_ne hj _ _
  have hitem := hsame j 0 (by rw [hzero]; omega)
  have hlt : (x j).offset < (x j).outerShape := by
    have hwindow := (hx.valid j).window
    rw [hx.shape j] at hwindow
    omega
  rw [hzero] at hitem
  simp only [markOffset, update_self, Nat.add_zero] at hitem
  rw [getElem?_set_self (by simpa using hlt), getElem?_set_ne hoff, getElem?_replicate] at hitem
  split at hitem
  · exact hab (some.inj hitem)
  · cases hitem

/-- **Splitting arrays and scanning the slices.**  Rows are read completely.  Columns are, where each column holds
    at the offset of the first one the items of its own window; for columns of given layouts this is so for all
    their data exactly if the offsets agree. -/
theorem splitData_reads_iff {W : Type} [∀ j, Nontrivial (V j)] (addIndex : Bool) {n : ℕ} (hn : 0 < n) :
    (∀ xs : List (ArrayView W), (∀ x ∈ xs, x.Valid) → (∀ x ∈ xs, n * x.shape < 2 ^ 64) → RowsRead addIndex xs n) ∧
      ∀ xs : List (∀ j, ArrayView (V j)), (∀ x ∈ xs, ColumnsValid x) → (∀ x ∈ xs, n * (x 0).shape < 2 ^ 64) →
        (ColumnsRead addIndex xs n ↔ ∀ x ∈ xs, SameItems x) ∧
        ((∀ ys, List.Forall₂ SameLayout xs ys → (∀ y ∈ ys, ColumnsValid y) → ColumnsRead addIndex ys n) ↔
          ∀ x ∈ xs, OffsetsAgree x) := by
  refine ⟨fun xs hxs hfits => rowsRead addIndex hn hxs hfits, fun xs hxs hfits =>
    ⟨columnsRead_iff hn hxs hfits, ?_, ?_⟩⟩
  · intro hread x hx j
    by_contra hne
    obtain ⟨hshape, hoff⟩ := not_or.mp hne
    obtain ⟨a, b, hab⟩ := exists_pair_ne (V j)
    have hvalid : ∀ y ∈ xs.map (markOffset · j a b), ColumnsValid y := by
      intro y hy
      obtain ⟨x, hx, rfl⟩ := mem_map.mp hy
      exact (hxs x hx).markOffset j a b
    have hlayout : List.Forall₂ SameLayout xs (xs.map (markOffset · j a b)) := by
      rw [forall₂_map_right_iff, forall₂_same]
      exact fun x _ => sameLayout_markOffset x j a b
    have hfits' : ∀ y ∈ xs.map (markOffset · j a b), n * (y 0).shape < 2 ^ 64 := by
      intro y hy
      obtain ⟨x, hx, rfl⟩ := mem_map.mp hy
      rw [(sameLayout_markOffset x j a b 0).2.2]
      exact hfits x hx
    have hsame := (columnsRead_iff hn hvalid hfits').mp (hread _ hlayout hvalid)
    exact not_sameItems_markOffset (hxs x hx) hab hshape hoff (hsame _ (mem_map_of_mem hx))
  · intro hagree ys hlayout hvalid
    have hback : ∀ y ∈ ys, ∃ x ∈ xs, SameLayout x y := by
      clear hvalid hxs hfits hagree
      induction hlayout with
      | nil => exact fun y hy => nomatch hy
      | @cons x y xs ys hxy _ ih =>
        refine forall_mem_cons.mpr ⟨⟨x, mem_cons_self, hxy⟩, fun z hz => ?_⟩
        obtain ⟨w, hw, hwz⟩ := ih z hz
        exact ⟨w, mem_cons_of_mem x hw, hwz⟩
    have hfits' : ∀ y ∈ ys, n * (y 0).shape < 2 ^ 64 := by
      intro y hy
      obtain ⟨x, hx, hxy⟩ := hback y hy
      rw [(hxy 0).2.2]
      exact hfits x hx
    rw [columnsRead_iff hn hvalid hfits']
    intro y hy
    obtain ⟨x, hx, hxy⟩ := hback y hy
    exact ((hagree x hx).congr hxy).sameItems

end Columns

/-- Two columns of one item each, the second one behind an item that does not belong to it. -/
def shiftedColumn (offset : ℕ) : Fin 2 → ArrayView ℤ
  | 0 => ⟨[1, 2], 2, 0, 1⟩
  | 1 => ⟨[3, 4], 2, offset, 1⟩

theorem columnsValid_shiftedColumn {offset : ℕ} (h : offset ≤ 1) :
    ∀ x ∈ [shiftedColumn offset], ColumnsValid (V := fun _ => ℤ) x := by
  intro x hx
  obtain rfl := mem_singleton.mp hx
  refine ⟨fun j => ?_, fun j => ?_⟩
  · fin_cases j
    · exact ⟨rfl, show 0 + 1 ≤ 2 by decide, show 2 < 2 ^ 64 by decide⟩
    · exact ⟨rfl, show offset + 1 ≤ 2 by omega, show 2 < 2 ^ 64 by decide⟩
  · fin_cases j <;> rfl

theorem splitData_reads_aligned : ColumnsRead (V := fun _ => ℤ) true [shiftedColumn 0] 3 := by
  have hvalid := columnsValid_shiftedColumn (Nat.zero_le 1)
  have hfits : ∀ x ∈ [shiftedColumn 0], 3 * (x 0).shape < 2 ^ 64 := by
    intro x hx
    obtain rfl := mem_singleton.mp hx
    decide
  refine (((splitData_reads_iff (W := ℤ) true (by decide)).2 _ hvalid hfits).1).mpr ?_
  intro x hx j t _
  obtain rfl := mem_singleton.mp hx
  fin_cases j <;> rfl

/-- The second column is read at the offset of the first one: 3 is returned in the place of 4. -/
theorem not_columnsRead_shifted : ¬ ColumnsRead (V := fun _ => ℤ) false [shiftedColumn 1] 1 := by
  have hfits : ∀ x ∈ [shiftedColumn 1], 1 * (x 0).shape < 2 ^ 64 := by
    intro x hx
    obtain rfl := mem_singleton.mp hx
    decide
  rw [columnsRead_iff (by decide) (columnsValid_shiftedColumn le_rfl) hfits]
  intro hsame
  have hitem := hsame _ mem_cons_self 1 0 (by decide)
  exact absurd hitem (by decide)

end Jitq.Operators

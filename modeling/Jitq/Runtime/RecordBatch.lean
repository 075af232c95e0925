import Jitq.Operators.SplitData

namespace Jitq.Runtime

open Fuel Pull Operators List

/-! # Record batches

`ConvertValueToRecordBatch` turns a tuple of arrays into an Arrow record batch without copying: each
column is a buffer on the memory of its array.  `ConvertRecordBatchToValue` goes back the same way, and
`ColumnScan` reads the rows of either tuple.

The buffer starts at the data pointer of the array, whatever the offset of the array is, and has as many
bytes for each row as the width of the type in bits has whole bytes.  So the rows survive for all data
exactly if every array starts at offset `0` and no column is of single bits, or if there is no row
(`recordBatch_survives_iff`). -/

/-! ### Arrays as memory -/

/-- The fixed-width types of Arrow: single bits, or a positive number of whole bytes. -/
inductive FixedWidthType
  | boolean
  | bytes (width : ℕ) (pos : 0 < width)
  deriving DecidableEq

namespace FixedWidthType

def bitWidth : FixedWidthType → ℕ
  | boolean => 1
  | bytes width _ => 8 * width

/-- The size of an item in the arrays of the generated code. -/
def itemSize : FixedWidthType → ℕ
  | boolean => 1
  | bytes width _ => width

theorem itemSize_pos (type : FixedWidthType) : 0 < type.itemSize := by
  cases type with
  | boolean => exact Nat.one_pos
  | bytes width pos => exact pos

end FixedWidthType

/-- The item at an index of some memory. -/
def itemAt (size : ℕ) (data : List (BitVec 8)) (i : ℕ) : List (BitVec 8) := (data.drop (i * size)).take size

/-- `values::Array` of one dimension; `data` is the memory behind the data pointer. -/
structure ArrayValue where
  data : List (BitVec 8)
  outerShape : ℕ
  offset : ℕ
  shape : ℕ

/-- The memory of an array holds `outerShape` items, and its window is inside. -/
structure ArrayValue.Valid (type : FixedWidthType) (a : ArrayValue) : Prop where
  memory : a.data.length = a.outerShape * type.itemSize
  window : a.offset + a.shape ≤ a.outerShape
  size : a.data.length < 2 ^ 64

/-- The array as the generated code sees it, item by item. -/
def ArrayValue.view (type : FixedWidthType) (a : ArrayValue) : ArrayView (List (BitVec 8)) :=
  ⟨(range a.outerShape).map (itemAt type.itemSize a.data), a.outerShape, a.offset, a.shape⟩

variable {i : ℕ}

theorem ArrayValue.view_getElem? (type : FixedWidthType) (a : ArrayValue) (hi : i < a.outerShape) :
    (a.view type).data[i]? = some (itemAt type.itemSize a.data i) := by
  rw [ArrayValue.view, getElem?_map, getElem?_range hi, Option.map_some]

/-! ### Record batches -/

/-- `arrow::Buffer`: the first `size` bytes behind a pointer. -/
structure Buffer where
  memory : List (BitVec 8)
  size : ℕ

def Buffer.bytes (buffer : Buffer) : List (BitVec 8) := buffer.memory.take buffer.size

/-- `arrow::PrimitiveArray` without nulls and without an offset. -/
structure PrimitiveArray where
  type : FixedWidthType
  length : ℕ
  buffer : Buffer

/-- Row `i` of a column, as the Arrow format lays it out: bits are packed, lowest first. -/
def PrimitiveArray.value (column : PrimitiveArray) (i : ℕ) : Option (List (BitVec 8)) :=
  if i < column.length then
    match column.type with
    | .boolean => (column.buffer.bytes[i / 8]?).map fun byte => [if byte.getLsbD (i % 8) then 1 else 0]
    | .bytes width _ =>
      if (i + 1) * width ≤ column.buffer.bytes.length then some (itemAt width column.buffer.bytes i)
      else none
  else none

variable {m : ℕ}

local instance (priority := 2000) neZeroArrays : @NeZero ℕ Zero.ofOfNat0 (m + 1) := Nat.instNeZeroSucc

structure RecordBatch (m : ℕ) where
  numRows : ℕ
  columns : Fin (m + 1) → PrimitiveArray

/-- `ConvertValueToRecordBatch`. -/
def convertValueToRecordBatch (schema : Fin (m + 1) → FixedWidthType)
    (valueColumns : Fin (m + 1) → ArrayValue) : RecordBatch m :=
  let numRows := (valueColumns 0).shape
  { numRows := numRows
    columns := fun i =>
      let typeWidth := (schema i).bitWidth / 8
      ⟨schema i, numRows, ⟨(valueColumns i).data, numRows * typeWidth % 2 ^ 64⟩⟩ }

/-- `ConvertRecordBatchToValue`.  Its assertions are about columns that were read from elsewhere: one
    dense allocation for each column, and a numeric type. -/
def convertRecordBatchToValue (recordBatch : RecordBatch m) : Fin (m + 1) → ArrayValue := fun i =>
  ⟨(recordBatch.columns i).buffer.bytes, recordBatch.numRows, 0, recordBatch.numRows⟩

/-- `ColumnScanOperator` on tuples of arrays of the types of a schema. -/
def columnScanOperator (addIndex : Bool) (schema : Fin (m + 1) → FixedWidthType)
    (upstream : Iter (Fin (m + 1) → ArrayValue)) : Iter (Option ℤ × (Fin (m + 1) → List (BitVec 8))) :=
  scanOperator (fun x => (x 0).offset) (fun x => (x 0).shape)
    (fun x => lookupColumns addIndex fun j => (x j).view (schema j)) upstream

/-! ### Surviving the conversion -/

/-- A tuple of valid arrays of one shape. -/
structure TupleValid (schema : Fin (m + 1) → FixedWidthType) (x : Fin (m + 1) → ArrayValue) : Prop where
  valid : ∀ j, (x j).Valid (schema j)
  shape : ∀ j, (x j).shape = (x 0).shape

/-- What is expected of the conversion of one tuple. -/
structure Survives (addIndex : Bool) (schema : Fin (m + 1) → FixedWidthType)
    (x : Fin (m + 1) → ArrayValue) : Prop where
  numRows : (convertValueToRecordBatch schema x).numRows = (x 0).shape
  /-- Row `i` of a column is the item at `offset + i` of the array. -/
  rows : ∀ j, ∀ i < (x 0).shape, ((convertValueToRecordBatch schema x).columns j).value i =
    ((x j).view (schema j)).data[(x j).offset + i]?
  /-- No byte outside of the array is exposed. -/
  inside : ∀ j, ((convertValueToRecordBatch schema x).columns j).buffer.size ≤ (x j).data.length
  /-- A scan of the tuple that is converted back returns what a scan of the tuple itself does. -/
  scans : ∃ rows, Returns (columnScanOperator addIndex schema (Iter.ofList [x])).firstDrain rows ∧
    Returns (columnScanOperator addIndex schema (Iter.ofList
      [convertRecordBatchToValue (convertValueToRecordBatch schema x)])).firstDrain rows

/-- Two tuples that differ in the contents of their memory only. -/
def SameShapes (x y : Fin (m + 1) → ArrayValue) : Prop :=
  ∀ j, (y j).outerShape = (x j).outerShape ∧ (y j).offset = (x j).offset ∧ (y j).shape = (x j).shape

variable {schema : Fin (m + 1) → FixedWidthType} {x : Fin (m + 1) → ArrayValue}

theorem lookupColumns_congr {V : Fin (m + 1) → Type} {addIndex : Bool} {x y : ∀ j, ArrayView (V j)}
    (h : ∀ j, (x j).data[i]? = (y j).data[i]?) :
    lookupColumns addIndex x i = lookupColumns addIndex y i := by
  have hlt : ∀ j, i < (x j).data.length ↔ i < (y j).data.length := by
    intro j
    rw [← not_le, ← not_le, ← List.getElem?_eq_none_iff, ← List.getElem?_eq_none_iff, h j]
  unfold lookupColumns
  by_cases hx : ∀ j, i < (x j).data.length
  · have hy : ∀ j, i < (y j).data.length := fun j => (hlt j).mp (hx j)
    rw [dif_pos hx, dif_pos hy]
    have hitems : (fun j => (x j).data.get ⟨i, hx j⟩) = fun j => (y j).data.get ⟨i, hy j⟩ := by
      funext j
      have hj := h j
      rw [getElem?_eq_getElem (hx j), getElem?_eq_getElem (hy j)] at hj
      exact Option.some.inj hj
    rw [hitems]
  · have hy : ¬ ∀ j, i < (y j).data.length := fun hy => hx fun j => (hlt j).mpr (hy j)
    rw [dif_neg hx, dif_neg hy]

variable {j : Fin (m + 1)}

/-- The buffer of a column of whole bytes is as long as its rows. -/
theorem buffer_size (hx : TupleValid schema x) (hbytes : schema j ≠ .boolean) :
    ((convertValueToRecordBatch schema x).columns j).buffer.size = (x 0).shape * (schema j).itemSize ∧
      (x 0).shape * (schema j).itemSize ≤ (x j).data.length := by
  have hwindow := (hx.valid j).window
  rw [hx.shape j] at hwindow
  have hle : (x 0).shape * (schema j).itemSize ≤ (x j).data.length := by
    rw [(hx.valid j).memory]
    exact Nat.mul_le_mul_right _ (by omega)
  have hwidth : (schema j).bitWidth / 8 = (schema j).itemSize := by
    cases hj : schema j with
    | boolean => exact absurd hj hbytes
    | bytes width pos => exact Nat.mul_div_cancel_left width (by decide)
  refine ⟨?_, hle⟩
  show (x 0).shape * ((schema j).bitWidth / 8) % 2 ^ 64 = _
  rw [hwidth, Nat.mod_eq_of_lt (lt_of_le_of_lt hle (hx.valid j).size)]

theorem itemAt_take {size n i : ℕ} (data : List (BitVec 8)) (hi : i < n) :
    itemAt size (data.take (n * size)) i = itemAt size data i := by
  have hle : (i + 1) * size ≤ n * size := Nat.mul_le_mul_right size hi
  rw [Nat.succ_mul] at hle
  rw [itemAt, itemAt, drop_take, take_take, Nat.min_eq_left (by omega)]

/-- Without rows there is nothing to convert. -/
theorem survives_of_empty (addIndex : Bool) (hempty : (x 0).shape = 0) : Survives addIndex schema x where
  numRows := rfl
  rows := fun _ i hi => by omega
  inside := by
    intro j
    show (x 0).shape * _ % 2 ^ 64 ≤ _
    rw [hempty, Nat.zero_mul, Nat.zero_mod]
    exact Nat.zero_le _
  scans := by
    refine ⟨[], (scan_returns_iff _ _).mpr ⟨?_, ?_⟩, (scan_returns_iff _ _).mpr ⟨?_, ?_⟩⟩
    · intro y hy t ht
      rw [mem_singleton.mp hy] at ht
      have hlt : t < (x 0).shape := ht
      omega
    · rw [flatMap_singleton, scanned, hempty]
      rfl
    · intro y hy t ht
      rw [mem_singleton.mp hy] at ht
      have hlt : t < (x 0).shape := ht
      omega
    · rw [flatMap_singleton]
      show [] = ((range' 0 (x 0).shape).filterMap _)
      rw [hempty]
      rfl

theorem lt_outerShape (hx : TupleValid schema x) (hi : i < (x 0).shape) (j : Fin (m + 1)) :
    (x j).offset + i < (x j).outerShape := by
  have hwindow := (hx.valid j).window
  rw [hx.shape j] at hwindow
  omega

/-- The rows of a buffer of whole bytes are the first items of its array, whatever the offset. -/
theorem value_eq (hx : TupleValid schema x) (hbytes : schema j ≠ .boolean)
    (hi : i < (x 0).shape) : ((convertValueToRecordBatch schema x).columns j).value i =
      some (itemAt (schema j).itemSize (x j).data i) := by
  obtain ⟨hsize, hle⟩ := buffer_size hx hbytes
  have hrow : i < ((convertValueToRecordBatch schema x).columns j).length := hi
  have htype : ((convertValueToRecordBatch schema x).columns j).type = schema j := rfl
  have hlen : ((convertValueToRecordBatch schema x).columns j).buffer.bytes.length =
      (x 0).shape * (schema j).itemSize := by
    rw [Buffer.bytes, length_take, hsize]
    exact Nat.min_eq_left hle
  have hitem : itemAt (schema j).itemSize
      ((convertValueToRecordBatch schema x).columns j).buffer.bytes i =
        itemAt (schema j).itemSize (x j).data i := by
    rw [Buffer.bytes, hsize]
    exact itemAt_take (x j).data hi
  rw [PrimitiveArray.value, if_pos hrow, htype, hlen]
  cases hj : schema j with
  | boolean => exact absurd hj hbytes
  | bytes width pos =>
    rw [hj] at hitem
    have hfits : (i + 1) * width ≤ (x 0).shape * width := Nat.mul_le_mul_right width hi
    show (if (i + 1) * width ≤ (x 0).shape * width then _ else _) = _
    rw [if_pos hfits]
    exact congrArg some hitem

section Offsets

variable (hx : TupleValid schema x) (hoff : ∀ j, (x j).offset = 0) (hbytes : ∀ j, schema j ≠ .boolean)

include hx hoff hbytes

/-- Both tuples are looked up at the same indexes, with the same results. -/
theorem lookup_back (addIndex : Bool) (hi : i < (x 0).shape) :
    lookupColumns addIndex (fun j => (convertRecordBatchToValue
        (convertValueToRecordBatch schema x) j).view (schema j)) i =
      lookupColumns addIndex (fun j => (x j).view (schema j)) i := by
  refine lookupColumns_congr fun j => ?_
  have hout := lt_outerShape hx hi j
  rw [hoff j, Nat.zero_add] at hout
  have hrow : i < (convertRecordBatchToValue (convertValueToRecordBatch schema x) j).outerShape := hi
  rw [ArrayValue.view_getElem? _ _ hrow, ArrayValue.view_getElem? _ _ hout]
  show some (itemAt _ ((x j).data.take _) i) = _
  rw [(buffer_size hx (hbytes j)).1, itemAt_take (x j).data hi]

theorem survives_of_offsets (addIndex : Bool) : Survives addIndex schema x where
  numRows := rfl
  rows := by
    intro j i hi
    rw [value_eq hx (hbytes j) hi, ArrayValue.view_getElem? _ _ (lt_outerShape hx hi j), hoff j, Nat.zero_add]
  inside := by
    intro j
    obtain ⟨hsize, hle⟩ := buffer_size hx (hbytes j)
    rw [hsize]
    exact hle
  scans := by
    have hinside : ∀ i < (x 0).shape,
        (lookupColumns addIndex (fun j => (x j).view (schema j)) i).isSome := by
      intro i hi
      rw [lookupColumns_isSome]
      intro j
      have hout := lt_outerShape hx hi j
      rw [hoff j, Nat.zero_add] at hout
      rw [ArrayValue.view_getElem? _ _ hout]
      rfl
    refine ⟨_, (scan_returns_iff _ _).mpr ⟨?_, rfl⟩, (scan_returns_iff _ _).mpr ⟨?_, ?_⟩⟩
    · intro y hy t ht
      rw [mem_singleton.mp hy] at ht ⊢
      show (lookupColumns _ _ ((x 0).offset + t)).isSome
      rw [hoff 0, Nat.zero_add]
      exact hinside t ht
    · intro y hy t ht
      rw [mem_singleton.mp hy] at ht ⊢
      have hlt : t < (x 0).shape := ht
      show (lookupColumns _ _ (0 + t)).isSome
      rw [Nat.zero_add, lookup_back hx hoff hbytes addIndex hlt]
      exact hinside t hlt
    · rw [flatMap_singleton, flatMap_singleton]
      show (range' (x 0).offset (x 0).shape).filterMap _ = (range' 0 (x 0).shape).filterMap _
      rw [hoff 0]
      refine filterMap_congr fun i hi => ?_
      have hlt : i < 0 + (x 0).shape := (mem_range'_1.mp hi).2
      rw [Nat.zero_add] at hlt
      exact (lookup_back hx hoff hbytes addIndex hlt).symm

end Offsets

/-! ### Where it does not survive -/

/-- The tuple `x` with one byte set in the memory of column `j`, the first one of its window. -/
def markWindow (schema : Fin (m + 1) → FixedWidthType) (x : Fin (m + 1) → ArrayValue) (j : Fin (m + 1)) :
    Fin (m + 1) → ArrayValue :=
  Function.update x j { x j with
    data := (replicate (x j).data.length 0).set ((x j).offset * (schema j).itemSize) 1 }

theorem sameShapes_markWindow (j : Fin (m + 1)) : SameShapes x (markWindow schema x j) := by
  intro i
  by_cases hi : i = j
  · subst hi
    simp [markWindow]
  · simp [markWindow, Function.update_of_ne hi]

theorem TupleValid.markWindow (hx : TupleValid schema x) (j : Fin (m + 1)) :
    TupleValid schema (markWindow schema x j) where
  valid i := by
    have hsame : SameShapes x (Runtime.markWindow schema x j) := sameShapes_markWindow j
    obtain ⟨houter, hoff, hshape⟩ := hsame i
    have hlen : (Runtime.markWindow schema x j i).data.length = (x i).data.length := by
      by_cases hi : i = j
      · subst hi
        simp [Runtime.markWindow]
      · simp [Runtime.markWindow, Function.update_of_ne hi]
    refine ⟨?_, ?_, ?_⟩
    · rw [hlen, houter]
      exact (hx.valid i).memory
    · rw [houter, hoff, hshape]
      exact (hx.valid i).window
    · rw [hlen]
      exact (hx.valid i).size
  shape i := by
    have hsame : SameShapes x (Runtime.markWindow schema x j) := sameShapes_markWindow j
    rw [(hsame i).2.2, (hsame 0).2.2]
    exact hx.shape i

theorem itemAt_head {size : ℕ} (hsize : 0 < size) (data : List (BitVec 8)) (i : ℕ) :
    (itemAt size data i)[0]? = data[i * size]? := by
  rw [itemAt, getElem?_take_of_lt hsize, getElem?_drop, Nat.add_zero]

/-- Bits have no whole byte, so the buffer of their column is empty. -/
theorem not_survives_of_boolean {addIndex : Bool} (hx : TupleValid schema x) (hrows : 0 < (x 0).shape)
    (hj : schema j = .boolean) : ¬ Survives addIndex schema x := by
  intro h
  have hrow := h.rows j 0 hrows
  rw [ArrayValue.view_getElem? _ _ (lt_outerShape hx hrows j)] at hrow
  have hbytes : ((convertValueToRecordBatch schema x).columns j).buffer.bytes = [] := by
    show (x j).data.take ((x 0).shape * ((schema j).bitWidth / 8) % 2 ^ 64) = []
    rw [hj]
    simp [FixedWidthType.bitWidth]
  have hnone : ((convertValueToRecordBatch schema x).columns j).value 0 = none := by
    have htype : ((convertValueToRecordBatch schema x).columns j).type = .boolean := hj
    rw [PrimitiveArray.value, htype, hbytes]
    simp
  rw [hnone] at hrow
  cases hrow

/-- The buffer starts at the data pointer, so an array with an offset loses the first item of its
    window. -/
theorem not_survives_of_offset {addIndex : Bool} (hx : TupleValid schema x) (hrows : 0 < (x 0).shape)
    (hoff : (x j).offset ≠ 0) (hbytes : schema j ≠ .boolean) :
    ¬ Survives addIndex schema (markWindow schema x j) := by
  intro h
  have hvalid := hx.markWindow j
  have hshapes : SameShapes x (markWindow schema x j) := sameShapes_markWindow j
  have hrows' : 0 < (markWindow schema x j 0).shape := by
    rw [(hshapes 0).2.2]
    exact hrows
  have hrow := h.rows j 0 hrows'
  rw [value_eq hvalid hbytes hrows', ArrayValue.view_getElem? _ _ (lt_outerShape hvalid hrows' j)] at hrow
  -- compare the first byte of the two items
  have hpos := (schema j).itemSize_pos
  have hhead := congrArg (fun item => item[0]?) (Option.some.inj hrow)
  simp only [itemAt_head hpos, Nat.zero_mul, Nat.add_zero, (hshapes j).2.1] at hhead
  have hlt : (x j).offset * (schema j).itemSize < (x j).data.length := by
    have hout := lt_outerShape hx hrows j
    rw [(hx.valid j).memory]
    exact Nat.mul_lt_mul_of_pos_right (by omega) hpos
  have hne : (x j).offset * (schema j).itemSize ≠ 0 := Nat.mul_ne_zero hoff (by omega)
  rw [markWindow, Function.update_self] at hhead
  rw [getElem?_set_ne hne, getElem?_replicate_of_lt (by omega),
    getElem?_set_self (by rwa [length_replicate])] at hhead
  exact absurd (Option.some.inj hhead) (by decide)

/-- **Columns survive the conversion to record batches and back**, whatever their data is, exactly if all
    arrays start at offset `0` and none of them is of bits, or if there is no row. -/
theorem recordBatch_survives_iff (addIndex : Bool) (schema : Fin (m + 1) → FixedWidthType)
    (x : Fin (m + 1) → ArrayValue) (hx : TupleValid schema x) :
    (∀ y, SameShapes x y → TupleValid schema y → Survives addIndex schema y) ↔
      (x 0).shape = 0 ∨ ∀ j, (x j).offset = 0 ∧ schema j ≠ .boolean := by
  constructor
  · intro h
    rcases Nat.eq_zero_or_pos (x 0).shape with hempty | hrows
    · exact .inl hempty
    · refine .inr fun j => ?_
      have hbytes : schema j ≠ .boolean := by
        intro hj
        exact not_survives_of_boolean hx hrows hj (h x (fun _ => ⟨rfl, rfl, rfl⟩) hx)
      refine ⟨?_, hbytes⟩
      by_contra hoff
      exact not_survives_of_offset hx hrows hoff hbytes
        (h _ (sameShapes_markWindow j) (hx.markWindow j))
  · intro h y hy hvalid
    rcases h with hempty | hcols
    · refine survives_of_empty addIndex ?_
      rw [(hy 0).2.2]
      exact hempty
    · refine survives_of_offsets hvalid (fun j => ?_) (fun j => (hcols j).2) addIndex
      rw [(hy j).2.1]
      exact (hcols j).1

/-- One column of the type `int`, whose window starts behind `offset` items. -/
def intColumn (offset : ℕ) : Fin 1 → ArrayValue := fun _ => ⟨[0, 0, 0, 0, 1, 0, 0, 0], 2, offset, 1⟩

def intSchema : Fin 1 → FixedWidthType := fun _ => .bytes 4 (by decide)

theorem recordBatch_survives_int : Survives true intSchema (intColumn 0) := by
  have hvalid : TupleValid intSchema (intColumn 0) :=
    ⟨fun _ => ⟨rfl, show 0 + 1 ≤ 2 by decide, show 8 < 2 ^ 64 by decide⟩, fun _ => rfl⟩
  refine (recordBatch_survives_iff true intSchema (intColumn 0) hvalid).mpr (.inr fun _ => ?_) _
    (fun _ => ⟨rfl, rfl, rfl⟩) hvalid
  exact ⟨rfl, show FixedWidthType.bytes 4 _ ≠ .boolean from nofun⟩

/-- The window of the array holds the item `1`, and the record batch the item `0` in front of it. -/
theorem recordBatch_ignores_offset :
    ((convertValueToRecordBatch intSchema (intColumn 1)).columns 0).value 0 = some [0, 0, 0, 0] ∧
      ((intColumn 1 0).view (intSchema 0)).data[(intColumn 1 0).offset + 0]? = some [1, 0, 0, 0] := by
  decide

end Jitq.Runtime

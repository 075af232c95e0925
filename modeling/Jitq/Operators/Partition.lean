import Jitq.Data.Atomic
import Jitq.Operators.Grouping

namespace Jitq.Operators

open Fuel Pull List Function

/-! # Partition — blocks in memory and the hash of the first field

`PartitionOperator` distributes its input over the partitions by `MurmurHash2` of the bytes of the first field.
`Operators.Grouping` has its loop on lists of tuples; here are the blocks as arrays over allocated memory, and
the bytes that the hash reads.

* `image_insertTuple` — the loop on arrays does what the loop on lists does, and never writes outside a block;
* `Distributed` — the invariant of the loop: the blocks of a partition hold, in order, the tuples that were
  assigned to it;
* `partition_partitions_iff` — the operator partitions all inputs whose first field has a given type exactly if
  that type is `int` or `long`, or `bool` in a build without assertions.  Equal `float`s and `double`s can have
  different bytes (the two zeros), the bytes of a `std::string` hold an address, and the `switch` of the hash
  runs into `assert(len == 0)` for a field of one byte. -/

/-! ### MurmurHash2 -/

/-- The mixing constant `m`. -/
def murmurM : BitVec 32 := 0x5bd1e995

/-- One round of the loop over words of four bytes. -/
def mixWord (h k : BitVec 32) : BitVec 32 :=
  let k := k * murmurM
  let k := k ^^^ (k >>> 24)
  let k := k * murmurM
  (h * murmurM) ^^^ k

/-- The words of four bytes, read on a little-endian machine; returns the bytes that are left. -/
def mixWords : BitVec 32 → List (BitVec 8) → BitVec 32 × List (BitVec 8)
  | h, b₀ :: b₁ :: b₂ :: b₃ :: data => mixWords (mixWord h (b₃ ++ b₂ ++ b₁ ++ b₀)) data
  | h, data => (h, data)

/-- The cases 3, 2 and 1 of the `switch`, each of which falls through to the next one. -/
def mixTail (h : BitVec 32) : List (BitVec 8) → BitVec 32
  | [b₀, b₁, b₂] => (h ^^^ (b₂.setWidth 32 <<< 16) ^^^ (b₁.setWidth 32 <<< 8) ^^^ b₀.setWidth 32) * murmurM
  | [b₀, b₁] => (h ^^^ (b₁.setWidth 32 <<< 8) ^^^ b₀.setWidth 32) * murmurM
  | [b₀] => (h ^^^ b₀.setWidth 32) * murmurM
  | _ => h

/-- The final mixes. -/
def finalMix (h : BitVec 32) : BitVec 32 :=
  let h := h ^^^ (h >>> 13)
  let h := h * murmurM
  h ^^^ (h >>> 15)

/-- `MurmurHash2::Hash`.  The cases of the `switch` fall through to `default`, which asserts that no byte is
    left although `len` still counts those that have just been mixed in. -/
def murmurHash2 (assertions : Bool) (key : List (BitVec 8)) (seed : BitVec 32) : Option (BitVec 32) :=
  let (h, data) := mixWords (seed ^^^ BitVec.ofNat 32 key.length) key
  if assertions && !data.isEmpty then none else some (finalMix (mixTail h data))

/-! ### The bytes of a field -/

/-- A field of atomic type in memory.  The last two members are of interest for a `std::string` only: the
    pointer to its characters, and its local buffer, of which the value determines a part at most. -/
structure Stored where
  value : Atom
  pointer : BitVec 64
  buffer : BitVec 128

/-- The lowest `n` bytes of a word, on a little-endian machine. -/
def littleEndian (n : ℕ) {w : ℕ} (x : BitVec w) : List (BitVec 8) := (range n).map fun i => (x >>> (8 * i)).setWidth 8

/-- The object representation of a field. -/
def Stored.bytes (field : Stored) : List (BitVec 8) :=
  match field.value with
  | .bool b => [if b then 1 else 0]
  | .int n => littleEndian 4 n
  | .long n => littleEndian 8 n
  | .float bits => littleEndian 4 bits
  | .double bits => littleEndian 8 bits
  | .string chars =>
    littleEndian 8 field.pointer ++ littleEndian 8 (BitVec.ofNat 64 chars.length) ++ littleEndian 16 field.buffer

/-! ### Blocks -/

/-- An array over a block of memory; `none` is memory in which nothing has been constructed. -/
structure InnerArray (τ : Type) where
  data : ℕ → Option τ
  outerShape : ℕ
  offsets : ℕ
  shape : ℕ

namespace InnerArray

variable {τ : Type}

/-- A block that has just been allocated. -/
def allocated : InnerArray τ := ⟨fun _ => none, 0, 0, 0⟩

variable (b : InnerArray τ)

/-- `new (data.get() + outer_shape[0]++) InnerTuple(input_tuple)`; there is no memory behind the capacity. -/
def construct (inputTuple : τ) : Option (InnerArray τ) :=
  if b.outerShape < kBlockCapacity then
    some { b with data := update b.data b.outerShape (some inputTuple), outerShape := b.outerShape + 1 }
  else none

/-- `shape[0] = outer_shape[0]`. -/
def finished : InnerArray τ := { b with shape := b.outerShape }

/-- The tuples that a reader of the array sees. -/
def rows : List τ := (range b.shape).filterMap fun i => b.data (b.offsets + i)

/-- The number of tuples that have been constructed in a block. -/
def numConstructed : ℕ := (range kBlockCapacity).countP fun i => (b.data i).isSome

/-- A block with the tuples `ts`, before its shape is set. -/
def filled (ts : List τ) : InnerArray τ := ⟨fun i => ts[i]?, ts.length, 0, 0⟩

theorem construct_filled {ts : List τ} (h : ts.length < kBlockCapacity) (t : τ) :
    (filled ts).construct t = some (filled (ts ++ [t])) := by
  rw [construct, if_pos (show (filled ts).outerShape < kBlockCapacity from h)]
  refine congrArg some ?_
  show InnerArray.mk (update (fun i => ts[i]?) ts.length (some t)) (ts.length + 1) 0 0 = _
  rw [filled, length_append, length_singleton]
  congr 1
  funext i
  rcases lt_trichotomy i ts.length with hlt | rfl | hlt
  · rw [update_of_ne hlt.ne, getElem?_append_left hlt]
  · rw [update_self, getElem?_concat_length]
  · rw [update_of_ne hlt.ne', getElem?_eq_none hlt.le, getElem?_eq_none (by simpa using Nat.succ_le_of_lt hlt)]

theorem construct_allocated (t : τ) : (allocated : InnerArray τ).construct t = some (filled [t]) := by
  have hcap : ([] : List τ).length < kBlockCapacity := Nat.zero_lt_succ 4095
  exact construct_filled hcap t

theorem rows_finished_filled (ts : List τ) : (filled ts).finished.rows = ts := by
  show (range ts.length).filterMap (fun i => ts[0 + i]?) = ts
  simp only [zero_add]
  exact Partial.filterMap_getElem?_range ts

theorem numConstructed_filled {ts : List τ} (h : ts.length ≤ kBlockCapacity) :
    (filled ts).finished.numConstructed = ts.length := by
  show (range kBlockCapacity).countP (fun i => ts[i]?.isSome) = ts.length
  have hcount : ∀ n, (range n).countP (fun i => ts[i]?.isSome) = min n ts.length := by
    intro n
    induction n with
    | zero => simp
    | succ n ih =>
      rw [range_succ, countP_append, ih]
      by_cases hn : n < ts.length
      · simp [hn]
        omega
      · simp [hn]
        omega
  rw [hcount, min_eq_right h]

end InnerArray

/-! ### The loop -/

variable {τ : Type}

/-- The loop body of `PartitionOperator::open`, on the finished blocks and the current block of each partition;
    `idOf` is the partition that a tuple is assigned to. -/
def insertTuple (idOf : τ → Option ℕ) (s : List (ℕ × InnerArray τ) × List (InnerArray τ)) (inputTuple : τ) :
    Option (List (ℕ × InnerArray τ) × List (InnerArray τ)) := do
  let idx ← idOf inputTuple
  let currentBlock ← s.2[idx]?
  let (partitions, currentBlock) :=
    if currentBlock.outerShape ≥ kBlockCapacity then (s.1 ++ [(idx, currentBlock.finished)], .allocated)
    else (s.1, currentBlock)
  let currentBlock ← currentBlock.construct inputTuple
  pure (partitions, s.2.set idx currentBlock)

/-- The loop behind the main one: the current block of each partition is finished. -/
def finishBlocks (s : List (ℕ × InnerArray τ) × List (InnerArray τ)) : List (ℕ × InnerArray τ) :=
  s.1 ++ s.2.zipIdx.map fun (block, i) => (i, block.finished)

/-- The blocks for lists of tuples. -/
def image (b : List (ℕ × List τ) × List (List τ)) : List (ℕ × InnerArray τ) × List (InnerArray τ) :=
  (b.1.map fun blk => (blk.1, (InnerArray.filled blk.2).finished), b.2.map InnerArray.filled)

/-- The tuples in the blocks of one partition. -/
def rowsOf (p : ℕ) (blocks : List (ℕ × List τ)) : List τ := (blocks.filter fun b => b.1 = p).flatMap Prod.snd

/-- The invariant of the loop after the tuples `xs`. -/
structure Distributed (hash : τ → ℕ) (fanout : ℕ) (xs : List τ) (b : List (ℕ × List τ) × List (List τ)) : Prop where
  length : b.2.length = fanout
  rows : ∀ p, rowsOf p b.1 ++ b.2[p]?.getD [] = xs.filter fun x => hash x % fanout = p
  ids : ∀ blk ∈ b.1, blk.1 < fanout
  full : ∀ blk ∈ b.1, blk.2.length ≤ kBlockCapacity
  current : ∀ ts ∈ b.2, ts.length ≤ kBlockCapacity

section

variable {hash : τ → ℕ} {fanout : ℕ} {xs : List τ} {b : List (ℕ × List τ) × List (List τ)}

theorem rowsOf_concat (p i : ℕ) (blocks : List (ℕ × List τ)) (ts : List τ) :
    rowsOf p (blocks ++ [(i, ts)]) = rowsOf p blocks ++ if i = p then ts else [] := by
  unfold rowsOf
  by_cases hi : i = p
  · simp [hi]
  · simp [hi]

theorem distributed_nil (hash : τ → ℕ) (fanout : ℕ) : Distributed hash fanout [] ([], replicate fanout []) where
  length := length_replicate
  rows p := by
    rw [getElem?_replicate]
    by_cases hp : p < fanout
    · rw [if_pos hp]
      rfl
    · rw [if_neg hp]
      rfl
  ids := by simp
  full := by simp
  current := by
    intro ts hts
    rw [eq_of_mem_replicate hts]
    exact Nat.zero_le _

section

variable (h : Distributed hash fanout xs b) (hfan : 0 < fanout)

include h hfan

/-- One step of the loop on lists. -/
theorem Distributed.insert (t : τ) :
    ∃ b', partitionInsert hash fanout b t = some b' ∧ Distributed hash fanout (xs ++ [t]) b' := by
  have hidx : hash t % fanout < b.2.length := by
    rw [h.length]
    exact Nat.mod_lt _ hfan
  generalize hi : hash t % fanout = idx at hidx
  obtain ⟨ts, hts⟩ : ∃ ts, b.2[idx]? = some ts := ⟨_, getElem?_eq_getElem hidx⟩
  have hcap := h.current ts (mem_of_getElem? hts)
  have hmod : ∀ p, (xs ++ [t]).filter (fun x => hash x % fanout = p) =
      rowsOf p b.1 ++ b.2[p]?.getD [] ++ if idx = p then [t] else [] := by
    intro p
    rw [filter_append, ← h.rows p, filter_singleton, hi]
    by_cases hp : idx = p <;> simp [hp]
  unfold partitionInsert
  simp only [hi, hts, Option.getD_some, if_neg hfan.ne']
  by_cases hfull : ts.length ≥ kBlockCapacity
  · -- the block is handed over, and a new one starts with the tuple
    rw [if_pos hfull]
    refine ⟨_, rfl, by simpa using h.length, fun p => ?_, ?_, ?_, ?_⟩
    · rw [hmod, rowsOf_concat]
      by_cases hp : idx = p
      · subst hp
        rw [getElem?_set_self hidx, hts]
        simp
      · simp [hp]
    · simpa [or_imp, forall_and, ← h.length] using ⟨fun a x hx => h.length ▸ h.ids _ hx, hidx⟩
    · simpa [or_imp, forall_and] using ⟨fun a x hx => h.full _ hx, hcap⟩
    · intro us hus
      rcases mem_or_eq_of_mem_set hus with hus | rfl
      · exact h.current us hus
      · show 1 ≤ 4096
        omega
  · rw [if_neg hfull]
    refine ⟨_, rfl, by simpa using h.length, fun p => ?_, h.ids, h.full, ?_⟩
    · rw [hmod]
      by_cases hp : idx = p
      · subst hp
        rw [getElem?_set_self hidx, hts]
        simp
      · simp [hp]
    · intro us hus
      rcases mem_or_eq_of_mem_set hus with hus | rfl
      · exact h.current us hus
      · rw [length_append, length_singleton]
        omega

/-- The step on arrays does what the step on lists does; in particular it stays inside the blocks. -/
theorem image_insertTuple {idOf : τ → Option ℕ} {t : τ} (hid : idOf t = some (hash t % fanout)) :
    insertTuple idOf (image b) t = (partitionInsert hash fanout b t).map image := by
  have hidx : hash t % fanout < b.2.length := by
    rw [h.length]
    exact Nat.mod_lt _ hfan
  unfold insertTuple partitionInsert
  generalize hash t % fanout = idx at hid hidx
  obtain ⟨ts, hts⟩ : ∃ ts, b.2[idx]? = some ts := ⟨_, getElem?_eq_getElem hidx⟩
  have hblock : (image b).2[idx]? = some (InnerArray.filled ts) := by
    rw [image, getElem?_map, hts, Option.map_some]
  simp only [hid, hblock, hts, Option.bind_eq_bind, Option.bind_some, Option.getD_some, if_neg hfan.ne']
  by_cases hfull : ts.length ≥ kBlockCapacity
  · rw [if_pos (show (InnerArray.filled ts).outerShape ≥ kBlockCapacity from hfull), if_pos hfull]
    simp only [InnerArray.construct_allocated, Option.bind_some]
    simp [image, map_set]
  · rw [if_neg (show ¬ (InnerArray.filled ts).outerShape ≥ kBlockCapacity from hfull), if_neg hfull]
    simp only [InnerArray.construct_filled (not_le.mp hfull), Option.bind_some]
    simp [image, map_set]

/-- The whole loop, by induction on the tuples that are left. -/
theorem foldlM_insertTuple {idOf : τ → Option ℕ} {ys : List τ} (hid : ∀ y ∈ ys, idOf y = some (hash y % fanout)) :
    ∃ b', ys.foldlM (insertTuple idOf) (image b) = some (image b') ∧ Distributed hash fanout (xs ++ ys) b' := by
  induction ys generalizing xs b with
  | nil => exact ⟨b, rfl, by simpa using h⟩
  | cons y ys ih =>
    obtain ⟨b1, hinsert, h1⟩ := h.insert hfan y
    obtain ⟨b', hfold, hb'⟩ := ih h1 fun x hx => hid x (mem_cons_of_mem y hx)
    refine ⟨b', ?_, by simpa using hb'⟩
    rw [foldlM_cons, image_insertTuple h hfan (hid y mem_cons_self), hinsert]
    exact hfold

end

theorem finishBlocks_image (b : List (ℕ × List τ) × List (List τ)) :
    finishBlocks (image b) = (partitions b).map fun blk => (blk.1, (InnerArray.filled blk.2).finished) := by
  simp only [finishBlocks, image, partitions, map_append, zipIdx_map, map_map]
  rfl

theorem rowsOf_partitions (h : Distributed hash fanout xs b) (p : ℕ) :
    rowsOf p (partitions b) = xs.filter fun x => hash x % fanout = p := by
  have hlast : ∀ (tss : List (List τ)) (k : ℕ),
      rowsOf p ((tss.zipIdx k).map Prod.swap) = if k ≤ p then tss[p - k]?.getD [] else [] := by
    intro tss
    induction tss with
    | nil => simp [rowsOf]
    | cons ts tss ih =>
      intro k
      have hcons := ih (k + 1)
      simp only [rowsOf, zipIdx_cons, map_cons, filter_cons] at hcons ⊢
      rcases lt_trichotomy k p with hlt | rfl | hlt
      · obtain ⟨j, hj⟩ : ∃ j, p - k = j + 1 := ⟨p - k - 1, by omega⟩
        have hj' : p - (k + 1) = j := by omega
        simp only [hj', if_pos (Nat.succ_le_of_lt hlt)] at hcons
        simp [hlt.ne, hlt.le, hj, hcons]
      · simp [hcons]
      · have hle : ¬ k ≤ p := by omega
        have hle' : ¬ k + 1 ≤ p := by omega
        simp [hlt.ne', hle, hle', hcons]
  rw [← h.rows p, partitions]
  unfold rowsOf at hlast ⊢
  rw [filter_append, flatMap_append]
  refine (congrArg (_ ++ ·) (hlast b.2 0)).trans ?_
  simp

end

/-! ### The operator -/

/-- The partition that a tuple is assigned to, by the bytes of its first field.  The seed is a `size_t` that
    the hash takes as an `unsigned int`; the remainder by a fanout of zero traps. -/
def partitionId (assertions : Bool) (seed : BitVec 64) (fanout : ℕ) (v0 : Stored) : Option ℕ :=
  if fanout = 0 then none
  else (murmurHash2 assertions v0.bytes (seed.setWidth 32)).map fun h => h.toNat % fanout

/-- `PartitionOperator<…, kSeed>`, on tuples with a first field in memory. -/
def blockPartitionOperator {ρ : Type} (assertions : Bool) (seed : BitVec 64) (mainUpstream : Iter (Stored × ρ))
    (confUpstream : Iter ℕ) : Iter (ℕ × InnerArray (Stored × ρ)) :=
  distributeOperator (fun fanout => insertTuple fun t => partitionId assertions seed fanout t.1)
    (fun fanout => ([], replicate fanout .allocated)) finishBlocks id id mainUpstream confUpstream

/-- What a partitioning of `xs` into blocks is: the blocks of a partition hold, in order, the tuples that are
    assigned to it; every block knows how many tuples it holds; every partition has a block; every tuple is
    assigned to a partition, and tuples with equal first fields to the same one. -/
structure IsPartitioning {ρ : Type} (idOf : Stored → Option ℕ) (fanout : ℕ) (xs : List (Stored × ρ))
    (blocks : List (ℕ × InnerArray (Stored × ρ))) : Prop where
  rows : ∀ p, ((blocks.filter fun b => b.1 = p).flatMap fun b => b.2.rows) = xs.filter fun x => idOf x.1 = some p
  sizes : ∀ b ∈ blocks, b.2.shape = b.2.numConstructed ∧ b.2.outerShape = b.2.numConstructed ∧
    b.2.numConstructed ≤ kBlockCapacity
  ids : ∀ p, p < fanout ↔ ∃ b ∈ blocks, b.1 = p
  assigned : ∀ x ∈ xs, ∃ p < fanout, idOf x.1 = some p
  keys : ∀ x ∈ xs, ∀ y ∈ xs, x.1.value == y.1.value → idOf x.1 = idOf y.1

section

variable {ρ : Type} {assertions : Bool} {seed : BitVec 64} {fanout : ℕ} {xs : List (Stored × ρ)}
  {um : Iter (Stored × ρ)} {uc : Iter ℕ} {cs : List ℕ}

theorem filled_blocks_sizes {τ : Type} {blocks : List (ℕ × List τ)}
    (hcap : ∀ blk ∈ blocks, blk.2.length ≤ kBlockCapacity) :
    ∀ b ∈ blocks.map (fun blk => (blk.1, (InnerArray.filled blk.2).finished)),
      b.2.shape = b.2.numConstructed ∧ b.2.outerShape = b.2.numConstructed ∧ b.2.numConstructed ≤ kBlockCapacity := by
  intro b hb
  obtain ⟨blk, hblk, rfl⟩ := mem_map.mp hb
  have hnum := InnerArray.numConstructed_filled (hcap blk hblk)
  exact ⟨hnum.symm, hnum.symm, hnum ▸ hcap blk hblk⟩

theorem filled_blocks_rows {τ : Type} (blocks : List (ℕ × List τ)) (p : ℕ) :
    (((blocks.map fun blk => (blk.1, (InnerArray.filled blk.2).finished)).filter fun b => b.1 = p).flatMap
      fun b => b.2.rows) = rowsOf p blocks := by
  rw [filter_map, flatMap_map]
  simp only [InnerArray.rows_finished_filled]
  rfl

section

variable {τ : Type} {hash : τ → ℕ} {xs : List τ} {b : List (ℕ × List τ) × List (List τ)}
    (h : Distributed hash fanout xs b)

include h

theorem mem_partitions_id (p : ℕ) : p < fanout ↔ ∃ blk ∈ partitions b, blk.1 = p := by
  constructor
  · intro hp
    rw [← h.length] at hp
    refine ⟨(p, b.2[p]), mem_append_right _ (mem_map.mpr ⟨(b.2[p], p), ?_, rfl⟩), rfl⟩
    rw [mk_mem_zipIdx_iff_getElem?]
    exact getElem?_eq_getElem hp
  · rintro ⟨blk, hblk, rfl⟩
    rcases mem_append.mp hblk with hblk | hblk
    · exact h.ids blk hblk
    · obtain ⟨⟨ts, i⟩, hmem, rfl⟩ := mem_map.mp hblk
      rw [mk_mem_zipIdx_iff_getElem?] at hmem
      rw [← h.length]
      exact (List.getElem?_eq_some_iff.mp hmem).1

theorem partitions_capacity : ∀ blk ∈ partitions b, blk.2.length ≤ kBlockCapacity := by
  intro blk hblk
  rcases mem_append.mp hblk with hblk | hblk
  · exact h.full blk hblk
  · obtain ⟨⟨ts, i⟩, hmem, rfl⟩ := mem_map.mp hblk
    exact h.current ts (mem_of_getElem? (mk_mem_zipIdx_iff_getElem?.mp hmem))

end

/-- The operator partitions its input if every tuple has a hash, and tuples with equal first fields have the
    same one. -/
theorem blockPartition_firstDrain (Rm : Replay um xs) (Rc : Replay uc (fanout :: cs)) (hfan : 0 < fanout)
    (hash : Stored × ρ → ℕ) (hid : ∀ x ∈ xs, partitionId assertions seed fanout x.1 = some (hash x % fanout))
    (hkeys : ∀ x ∈ xs, ∀ y ∈ xs, x.1.value == y.1.value → hash x = hash y) :
    ∃ blocks, Returns (blockPartitionOperator assertions seed um uc).firstDrain blocks ∧
      IsPartitioning (partitionId assertions seed fanout) fanout xs blocks := by
  obtain ⟨b, hfold, hb⟩ := foldlM_insertTuple (distributed_nil hash fanout) hfan hid
  have hinit : image (([], replicate fanout []) : List (ℕ × List (Stored × ρ)) × List (List (Stored × ρ))) =
      ([], replicate fanout .allocated) := by
    rw [image, map_replicate]
    rfl
  rw [hinit] at hfold
  have R : Replay (blockPartitionOperator assertions seed um uc) _ := distributeReplay id Rm Rc ⟨image b, hfold, rfl⟩
  refine ⟨_, R.reopens.first, ?_⟩
  rw [map_id, finishBlocks_image]
  refine ⟨fun p => ?_, filled_blocks_sizes (partitions_capacity hb), fun p => ?_, fun x hx => ?_, ?_⟩
  · rw [filled_blocks_rows, rowsOf_partitions hb]
    refine filter_congr fun x hx => ?_
    simp only [hid x hx, Option.some_inj]
  · rw [mem_partitions_id hb]
    simp
  · exact ⟨_, Nat.mod_lt _ hfan, hid x hx⟩
  · intro x hx y hy hkey
    rw [hid x hx, hid y hy, hkeys x hx y hy hkey]

/-- The types of a first field for which the operator partitions its input: those whose equal values have equal
    bytes, and whose bytes the hash takes without running into its assertion. -/
def Partitionable (assertions : Bool) (type : AtomicType) : Prop :=
  type = .int ∨ type = .long ∨ (type = .bool ∧ assertions = false)

theorem murmurHash2_eq_some {field : Stored} (h : Partitionable assertions field.value.type) (seed : BitVec 32) :
    ∃ v, murmurHash2 assertions field.bytes seed = some v := by
  obtain ⟨value, pointer, buffer⟩ := field
  cases value with
  | bool b =>
    obtain rfl : assertions = false := by simpa [Partitionable, Atom.type] using h
    exact ⟨_, rfl⟩
  | int n | long n => exact ⟨_, by simp [murmurHash2, Stored.bytes, littleEndian, range_succ, mixWords]; rfl⟩
  | float bits | double bits | string chars => simp [Partitionable, Atom.type] at h

theorem bytes_eq_of_beq {x y : Stored} (h : Partitionable assertions x.value.type) (heq : x.value == y.value) :
    x.bytes = y.bytes := by
  obtain ⟨a, pointer, buffer⟩ := x
  obtain ⟨b, pointer', buffer'⟩ := y
  change Atom.beq a b = true at heq
  cases a <;> cases b <;>
    simp_all [Partitionable, Atom.type, Atom.beq, Stored.bytes]

/-- The operator partitions every input whose first field has the type. -/
def PartitionsInputs (ρ : Type) (assertions : Bool) (type : AtomicType) : Prop :=
  ∀ (seed : BitVec 64) (fanout : ℕ) (xs : List (Stored × ρ)) (um : Iter (Stored × ρ)) (uc : Iter ℕ) (cs : List ℕ),
    Nonempty (Replay um xs) → Nonempty (Replay uc (fanout :: cs)) → 0 < fanout →
    (∀ x ∈ xs, x.1.value.type = type) →
    ∃ blocks, Returns (blockPartitionOperator assertions seed um uc).firstDrain blocks ∧
      IsPartitioning (partitionId assertions seed fanout) fanout xs blocks

theorem partitionsInputs_of_partitionable (ρ : Type) {type : AtomicType} (h : Partitionable assertions type) :
    PartitionsInputs ρ assertions type := by
  rintro seed fanout xs um uc cs ⟨Rm⟩ ⟨Rc⟩ hfan htype
  refine blockPartition_firstDrain Rm Rc hfan
    (fun x => ((murmurHash2 assertions x.1.bytes (seed.setWidth 32)).getD 0).toNat) (fun x hx => ?_)
    fun x hx y hy heq => ?_
  · obtain ⟨v, hv⟩ := murmurHash2_eq_some ((htype x hx).symm ▸ h) (seed.setWidth 32)
    rw [partitionId, if_neg hfan.ne', hv]
    rfl
  · show BitVec.toNat _ = BitVec.toNat _
    rw [bytes_eq_of_beq ((htype x hx).symm ▸ h) heq]

theorem PartitionsInputs.same_id {type : AtomicType} (h : PartitionsInputs ρ assertions type) (r : ρ)
    (x y : Stored) (hx : x.value.type = type) (hy : y.value.type = type) (heq : x.value == y.value) :
    (partitionId assertions 0 2 x).isSome ∧ partitionId assertions 0 2 x = partitionId assertions 0 2 y := by
  obtain ⟨blocks, -, hblocks⟩ := h 0 2 [(x, r), (y, r)] (Iter.ofList [(x, r), (y, r)]) (Iter.ofList [2]) []
    ⟨Replay.ofList _⟩ ⟨Replay.ofList _⟩ Nat.two_pos (by simp [hx, hy])
  obtain ⟨p, -, hp⟩ := hblocks.assigned (x, r) (by simp)
  exact ⟨by rw [hp]; rfl, hblocks.keys (x, r) (by simp) (y, r) (by simp) heq⟩

theorem partition_partitions_iff (r : ρ) (type : AtomicType) :
    PartitionsInputs ρ assertions type ↔ Partitionable assertions type := by
  refine ⟨fun h => ?_, partitionsInputs_of_partitionable ρ⟩
  cases type with
  | int => exact .inl rfl
  | long => exact .inr (.inl rfl)
  | bool =>
    -- with assertions, a field of one byte has no hash
    have hsome := (h.same_id r ⟨.bool true, 0, 0⟩ ⟨.bool true, 0, 0⟩ rfl rfl rfl).1
    cases assertions with
    | false => exact .inr (.inr ⟨rfl, rfl⟩)
    | true => cases hsome
  | float =>
    have hsame := (h.same_id r ⟨.float 0, 0, 0⟩ ⟨.float 0x80000000, 0, 0⟩ rfl rfl rfl).2
    exact absurd hsame (by cases assertions <;> decide)
  | double =>
    have hsame := (h.same_id r ⟨.double 0, 0, 0⟩ ⟨.double 0x8000000000000000, 0, 0⟩ rfl rfl rfl).2
    exact absurd hsame (by cases assertions <;> decide)
  | string =>
    -- the same characters at two addresses
    have hsame := (h.same_id r ⟨.string [65], 0, 0⟩ ⟨.string [65], 64, 0⟩ rfl rfl rfl).2
    exact absurd hsame (by cases assertions <;> decide)

/-- `0.0` and `-0.0` are equal, but they are in different partitions. -/
theorem zeros_in_different_partitions :
    (Atom.double 0 == Atom.double 0x8000000000000000) = true ∧
      partitionId false 0 2 ⟨.double 0, 0, 0⟩ ≠ partitionId false 0 2 ⟨.double 0x8000000000000000, 0, 0⟩ := by
  decide

end

end Jitq.Operators

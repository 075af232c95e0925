import Jitq.Data.Value
import Jitq.Operators.Pipelined
import Mathlib.Data.List.GetD

namespace Jitq.Optimize

open Fuel Pull Operators List

/-! # ParallelizeConcurrentSingleInout — one combined input for ConcurrentExecute

The pass replaces the inputs of a `ConcurrentExecute` by a single one: the partitioned inputs are
zipped, the broadcast inputs are zipped, and the two zips go through a `Cartesian`.  Inside, a
`Projection` behind each `ParameterLookup` takes the fields of the original input out of the combined
tuple.  At run time each combined tuple starts one worker.

`delivers_iff` says for which input streams this delivers the data: zipping streams of different
lengths loses tuples, a broadcast stream of more than one tuple multiplies the workers, and a zip
of no inputs never ends. -/

variable {α : Type}

/-- An entry of `inner_dag->inputs()` with what the pass reads of it: whether the consumer of its
    parameter is a `Broadcast`, and the width of the parameter's tuple; and the stream that arrives at
    its port, whose tuples have that width. -/
structure ExecuteInput (α : Type) where
  broadcast : Bool
  width : ℕ
  stream : List (Tuple α)
  typed : ∀ t ∈ stream, t.length = width

/-! ### The pass -/

def partitionedInputs (inputs : List (ExecuteInput α)) : List (ExecuteInput α) :=
  inputs.filter fun input => !input.broadcast

def broadcastedInputs (inputs : List (ExecuteInput α)) : List (ExecuteInput α) :=
  inputs.filter fun input => input.broadcast

/-- The two loops that put a `Projection` behind each parameter, on the width of the fields before. -/
def addProjections (prefixWidth : ℕ) : List (ExecuteInput α) → List (ExecuteInput α × List ℕ)
  | [] => []
  | input :: rest => (input, range' prefixWidth input.width) :: addProjections (prefixWidth + input.width) rest

/-- The parameters of the inner plan with their projections: the partitioned inputs come first. -/
def projections (inputs : List (ExecuteInput α)) : List (ExecuteInput α × List ℕ) :=
  addProjections 0 (partitionedInputs inputs ++ broadcastedInputs inputs)

/-- The `Zip` of some of the inputs, one in-flow per input in their order. -/
def zipInputs (inputs : List (ExecuteInput α)) : Iter (Tuple α) :=
  zipOperator (fun i : Fin inputs.length => Iter.ofList (inputs.get i).stream)
    fun ts => (ofFn ts).flatten

/-- The new single input of the `ConcurrentExecute`. -/
def combinedInput (inputs : List (ExecuteInput α)) : Iter (Tuple α) :=
  cartesianOperator (· ++ ·) (zipInputs (partitionedInputs inputs))
    (zipInputs (broadcastedInputs inputs))

/-! ### What the workers receive -/

/-- The `Projection` operator on one tuple. -/
def projection (positions : List ℕ) (t : Tuple α) : Tuple α := positions.map fun i => t.getD i default

/-- The data reaches the workers that are started with the combined tuples `workers`.  On input
    `ip.1`, a worker started with `w` reads the one tuple `projection ip.2 w`. -/
structure Delivers (inputs : List (ExecuteInput α)) (workers : List (Tuple α)) : Prop where
  /-- Out of any combination of tuples, each projection restores the fields of its input. -/
  restores : ∀ ts : List (Tuple α), List.Forall₂ (fun (input : ExecuteInput α) t => t.length = input.width)
      (partitionedInputs inputs ++ broadcastedInputs inputs) ts →
    List.Forall₂ (fun (ip : ExecuteInput α × List ℕ) t => projection ip.2 ts.flatten = t)
      (projections inputs) ts
  /-- Every tuple of a partitioned input reaches exactly one worker. -/
  partitioned : ∀ ip ∈ projections inputs, ip.1.broadcast = false → (workers.map (projection ip.2)).Perm ip.1.stream
  /-- Every worker receives every tuple of a broadcast input. -/
  broadcasted : ∀ ip ∈ projections inputs, ip.1.broadcast = true →
    ∀ w ∈ workers, ip.1.stream.Subperm [projection ip.2 w]

/-- Without broadcast inputs the product never ends.  Without partitioned inputs it ends only if it
    has no tuple at all.  Otherwise all partitioned streams are empty, or they have the same length
    and every broadcast stream is a single tuple. -/
def Deliverable (inputs : List (ExecuteInput α)) : Prop :=
  broadcastedInputs inputs ≠ [] ∧ ((partitionedInputs inputs = [] ∧ ∃ b ∈ broadcastedInputs inputs, b.stream = []) ∨
      (partitionedInputs inputs ≠ [] ∧ ((∀ i ∈ partitionedInputs inputs, i.stream = []) ∨
          (∃ n, ∀ i ∈ partitionedInputs inputs, i.stream.length = n) ∧
            ∀ b ∈ broadcastedInputs inputs, b.stream.length = 1)))

/-! ### Projections -/

theorem projection_append (pre t post : Tuple α) :
    projection (range' pre.length t.length) (pre ++ (t ++ post)) = t := by
  refine ext_getElem (by simp [projection]) fun i hi hi' => ?_
  simp only [projection, getElem_map, getElem_range', one_mul]
  rw [getD_append_right _ _ _ _ (Nat.le_add_right _ _), Nat.add_sub_cancel_left,
    getD_append _ _ _ _ hi', getD_eq_getElem _ _ hi']

variable {inputs : List (ExecuteInput α)}

theorem addProjections_restores (pre : Tuple α) {ts : List (Tuple α)}
    (h : List.Forall₂ (fun (input : ExecuteInput α) t => t.length = input.width) inputs ts) :
    List.Forall₂ (fun (ip : ExecuteInput α × List ℕ) t => projection ip.2 (pre ++ ts.flatten) = t)
      (addProjections pre.length inputs) ts := by
  induction h generalizing pre with
  | nil => exact .nil
  | @cons input t inputs ts hlen _ ih =>
    rw [addProjections, flatten_cons, ← hlen]
    refine .cons (projection_append pre t ts.flatten) ?_
    have hrest := ih (pre ++ t)
    rwa [length_append, append_assoc] at hrest

@[simp]
theorem map_fst_addProjections (prefixWidth : ℕ) (inputs : List (ExecuteInput α)) :
    (addProjections prefixWidth inputs).map Prod.fst = inputs := by
  induction inputs generalizing prefixWidth with
  | nil => rfl
  | cons input rest ih => rw [addProjections, map_cons, ih]

/-- The tuples of a row have the widths of the inputs. -/
def RowOf (inputs : List (ExecuteInput α)) (row : List (Tuple α)) : Prop :=
  List.Forall₂ (fun (input : ExecuteInput α) t => t.length = input.width) inputs row

/-- The projection of the `k`-th parameter finds the `k`-th tuple. -/
theorem projection_eq_getD {ts : List (Tuple α)}
    (h : RowOf inputs ts) {k : ℕ} (hk : k < (addProjections 0 inputs).length) :
    projection ((addProjections 0 inputs)[k]).2 ts.flatten = ts.getD k [] := by
  have hall := addProjections_restores [] h
  have hk' : k < ts.length := by rw [← hall.length_eq]; exact hk
  rw [getD_eq_getElem _ _ hk']
  exact List.Forall₂.get hall hk hk'

theorem RowOf.append {ps bs : List (ExecuteInput α)} {rowP rowB : List (Tuple α)}
    (hP : RowOf ps rowP) (hB : RowOf bs rowB) : RowOf (ps ++ bs) (rowP ++ rowB) := by
  exact rel_append hP hB

/-- A projection finds the tuple of its input in the half of the combined tuple it comes from. -/
theorem projection_of_mem {ps bs : List (ExecuteInput α)} {ip : ExecuteInput α × List ℕ}
    (h : ip ∈ addProjections 0 (ps ++ bs)) :
    (∃ j, ∃ hj : j < ps.length, ip.1 = ps[j] ∧ ∀ {rowP rowB}, RowOf ps rowP → RowOf bs rowB →
      projection ip.2 (rowP.flatten ++ rowB.flatten) = rowP.getD j []) ∨
    (∃ j, ∃ hj : j < bs.length, ip.1 = bs[j] ∧ ∀ {rowP rowB}, RowOf ps rowP → RowOf bs rowB →
      projection ip.2 (rowP.flatten ++ rowB.flatten) = rowB.getD j []) := by
  obtain ⟨k, hk, rfl⟩ := mem_iff_getElem.mp h
  have hlen : k < (ps ++ bs).length := by
    rwa [← map_fst_addProjections 0 (ps ++ bs), length_map]
  have hfst : ((addProjections 0 (ps ++ bs))[k]).1 = (ps ++ bs)[k] := by
    have hmap := getElem_map Prod.fst (l := addProjections 0 (ps ++ bs)) (i := k)
      (h := by rwa [length_map])
    simpa only [map_fst_addProjections] using hmap.symm
  have hproj : ∀ {rowP rowB}, RowOf ps rowP → RowOf bs rowB →
      projection ((addProjections 0 (ps ++ bs))[k]).2 (rowP.flatten ++ rowB.flatten) =
        (rowP ++ rowB).getD k [] := by
    intro rowP rowB hP hB
    rw [← flatten_append]
    exact projection_eq_getD (hP.append hB) hk
  by_cases hkp : k < ps.length
  · refine .inl ⟨k, hkp, by rw [hfst, getElem_append_left hkp], fun hP hB => ?_⟩
    rw [hproj hP hB, getD_append _ _ _ _ (hP.length_eq ▸ hkp)]
  · rw [not_lt] at hkp
    have hkb : k - ps.length < bs.length := by rw [length_append] at hlen; omega
    refine .inr ⟨k - ps.length, hkb, by rw [hfst, getElem_append_right hkp], fun hP hB => ?_⟩
    rw [hproj hP hB, getD_append_right _ _ _ _ (hP.length_eq ▸ hkp), ← hP.length_eq]

/-! ### The rows of a zip -/

/-- What `zipInputs` returns, before the tuples of a row are concatenated. -/
structure ZippedRows (inputs : List (ExecuteInput α)) (rows : List (List (Tuple α))) : Prop where
  typed : ∀ row ∈ rows, RowOf inputs row
  column : ∀ j, ∀ hj : j < inputs.length, (rows.map fun row => row.getD j []) = (inputs[j]).stream.take rows.length
  shortest : ∃ i ∈ inputs, rows.length = i.stream.length
  le : ∀ i ∈ inputs, rows.length ≤ i.stream.length

/-- A zip of at least one input replays the rows of its inputs. -/
theorem exists_zippedRows (h : inputs ≠ []) :
    ∃ rows, ZippedRows inputs rows ∧ Nonempty (Replay (zipInputs inputs) (rows.map flatten)) := by
  obtain ⟨x, xs, rfl⟩ := exists_cons_of_ne_nil h
  let xss : Fin (xs.length + 1) → List (Tuple α) := fun i => ((x :: xs).get i).stream
  have hcol : ∀ i, ((zipRows xss).map fun row => row i) = (xss i).take (zipRows xss).length := map_zipRows xss
  refine ⟨(zipRows xss).map ofFn, ⟨?_, ?_, ?_, ?_⟩, ⟨?_⟩⟩
  · intro row hrow
    obtain ⟨r, hr, rfl⟩ := mem_map.mp hrow
    refine forall₂_iff_get.mpr ⟨by simp, fun i hi hi' => ?_⟩
    have hmem : r ⟨i, hi⟩ ∈ (xss ⟨i, hi⟩).take (zipRows xss).length := hcol ⟨i, hi⟩ ▸ mem_map_of_mem hr
    rw [get_ofFn]
    exact ((x :: xs).get ⟨i, hi⟩).typed _ (mem_of_mem_take hmem)
  · intro j hj
    rw [map_map, length_map]
    refine Eq.trans (map_congr_left fun r _ => ?_) (hcol ⟨j, hj⟩)
    rw [Function.comp_apply, getD_eq_getElem _ _ (by rwa [length_ofFn]), List.getElem_ofFn]
  · obtain ⟨i, hi⟩ := exists_length_zipRows xss
    exact ⟨(x :: xs).get i, get_mem _ _, by rw [length_map]; exact hi⟩
  · intro i hi
    obtain ⟨k, rfl⟩ := get_of_mem hi
    rw [length_map]
    exact length_zipRows_le xss k
  · have R := zipReplay (fun i : Fin (xs.length + 1) => Replay.ofList (xss i))
      fun ts => (ofFn ts).flatten
    rw [map_map]
    exact R

/-! ### Workers -/

section Workers

variable {inputs : List (ExecuteInput α)} {rowsP rowsB : List (List (Tuple α))}

/-- The combined tuples, one for each worker. -/
def workersOf (rowsP rowsB : List (List (Tuple α))) : List (Tuple α) :=
  cartesianRows (· ++ ·) (rowsP.map flatten) (rowsB.map flatten)

theorem mem_workersOf {w : Tuple α} : w ∈ workersOf rowsP rowsB ↔
      ∃ rowB ∈ rowsB, ∃ rowP ∈ rowsP, rowP.flatten ++ rowB.flatten = w := by
  simp only [workersOf, cartesianRows, mem_flatMap, mem_map, exists_exists_and_eq_and]

variable {i : ExecuteInput α}

theorem broadcast_of_mem_partitioned (h : i ∈ partitionedInputs inputs) : i.broadcast = false := by
  simpa using (mem_filter.mp h).2

theorem broadcast_of_mem_broadcasted (h : i ∈ broadcastedInputs inputs) : i.broadcast = true := (mem_filter.mp h).2

section

variable (hP : ZippedRows (partitionedInputs inputs) rowsP) (hB : ZippedRows (broadcastedInputs inputs) rowsB)
    {ip : ExecuteInput α × List ℕ} (hip : ip ∈ projections inputs)

include hP hB hip

/-- What the workers receive of a partitioned input: the beginning of its stream, once for each
    combination of broadcast tuples. -/
theorem received_partitioned (hpart : ip.1.broadcast = false) :
    (workersOf rowsP rowsB).map (projection ip.2) = rowsB.flatMap fun _ => ip.1.stream.take rowsP.length := by
  rcases projection_of_mem hip with ⟨j, hj, heq, hproj⟩ | ⟨j, hj, heq, -⟩
  · rw [workersOf, cartesianRows, flatMap_map, map_flatMap]
    refine flatMap_congr fun rowB hrowB => ?_
    rw [heq, ← hP.column j hj, map_map, map_map]
    exact map_congr_left fun rowP hrowP => hproj (hP.typed _ hrowP) (hB.typed _ hrowB)
  · have hbr := broadcast_of_mem_broadcasted (getElem_mem hj)
    rw [← heq, hpart] at hbr
    simp at hbr

/-- What a worker receives of a broadcast input is one tuple of its stream. -/
theorem received_broadcasted (hbr : ip.1.broadcast = true)
    {w : Tuple α} (hw : w ∈ workersOf rowsP rowsB) : projection ip.2 w ∈ ip.1.stream := by
  obtain ⟨rowB, hrowB, rowP, hrowP, rfl⟩ := mem_workersOf.mp hw
  rcases projection_of_mem hip with ⟨j, hj, heq, -⟩ | ⟨j, hj, heq, hproj⟩
  · have hpart := broadcast_of_mem_partitioned (getElem_mem hj)
    rw [← heq, hbr] at hpart
    simp at hpart
  · rw [hproj (hP.typed _ hrowP) (hB.typed _ hrowB), heq]
    have hmem := mem_map_of_mem (f := fun row : List (Tuple α) => row.getD j []) hrowB
    rw [hB.column j hj] at hmem
    exact mem_of_mem_take hmem

end

theorem length_workersOf : (workersOf rowsP rowsB).length = rowsB.length * rowsP.length := by
  simp [workersOf, cartesianRows, Function.comp_def]

theorem exists_projection_of_mem (h : i ∈ partitionedInputs inputs ∨ i ∈ broadcastedInputs inputs) :
    ∃ ip ∈ projections inputs, ip.1 = i := by
  have hmem : i ∈ (projections inputs).map Prod.fst := by
    rw [projections, map_fst_addProjections]
    exact mem_append.mpr h
  exact mem_map.mp hmem

theorem mem_of_mem_projections {ip : ExecuteInput α × List ℕ} (h : ip ∈ projections inputs) :
    ip.1 ∈ partitionedInputs inputs ∨ ip.1 ∈ broadcastedInputs inputs := by
  have hmem := mem_map_of_mem (f := Prod.fst) h
  rw [projections, map_fst_addProjections] at hmem
  exact mem_append.mp hmem

section

variable (hP : ZippedRows (partitionedInputs inputs) rowsP) (hB : ZippedRows (broadcastedInputs inputs) rowsB)

include hP hB

/-- Delivery forces the lengths: the number of workers is the length of each partitioned stream, and
    a worker has room for one tuple of each broadcast stream. -/
theorem lengths_of_delivers (h : Delivers inputs (workersOf rowsP rowsB)) :
    (∀ i ∈ partitionedInputs inputs, i.stream = []) ∨ (∃ n, ∀ i ∈ partitionedInputs inputs, i.stream.length = n) ∧
        ∀ b ∈ broadcastedInputs inputs, b.stream.length = 1 := by
  have hlen : ∀ i ∈ partitionedInputs inputs,
      i.stream.length = rowsB.length * rowsP.length := by
    intro i hi
    obtain ⟨ip, hip, rfl⟩ := exists_projection_of_mem (.inl hi)
    have hperm := (h.partitioned ip hip (broadcast_of_mem_partitioned hi)).length_eq
    rw [length_map, length_workersOf] at hperm
    exact hperm.symm
  rcases Nat.eq_zero_or_pos rowsP.length with hzero | hpos
  · refine .inl fun i hi => length_eq_zero_iff.mp ?_
    rw [hlen i hi, hzero, Nat.mul_zero]
  · -- the shortest partitioned stream makes all its tuples into workers, so there is one row
    have hone : rowsB.length = 1 := by
      obtain ⟨i, hi, hshort⟩ := hP.shortest
      have hmul := hshort.trans (hlen i hi)
      exact Nat.eq_of_mul_eq_mul_right hpos (by rw [one_mul]; exact hmul.symm)
    refine .inr ⟨⟨_, hlen⟩, fun b hb => le_antisymm ?_ (hone ▸ hB.le b hb)⟩
    obtain ⟨w, hw⟩ : ∃ w, w ∈ workersOf rowsP rowsB := by
      refine exists_mem_of_length_pos ?_
      rw [length_workersOf, hone, one_mul]
      exact hpos
    obtain ⟨ip, hip, rfl⟩ := exists_projection_of_mem (.inr hb)
    exact (h.broadcasted ip hip (broadcast_of_mem_broadcasted hb) w hw).length_le

theorem delivers_of_lengths (h : (∀ i ∈ partitionedInputs inputs, i.stream = []) ∨
      (∃ n, ∀ i ∈ partitionedInputs inputs, i.stream.length = n) ∧
        ∀ b ∈ broadcastedInputs inputs, b.stream.length = 1) :
    Delivers inputs (workersOf rowsP rowsB) := by
  refine ⟨fun ts hts => addProjections_restores [] hts, ?_, ?_⟩
  · intro ip hip hpart
    rw [received_partitioned hP hB hip hpart]
    have hmem : ip.1 ∈ partitionedInputs inputs := by
      refine (mem_of_mem_projections hip).resolve_right fun hbr => ?_
      rw [broadcast_of_mem_broadcasted hbr] at hpart
      simp at hpart
    rcases h with hempty | ⟨⟨n, hn⟩, hone⟩
    · simp [hempty _ hmem]
    · obtain ⟨b, hb, hshortB⟩ := hB.shortest
      obtain ⟨i, hi, hshortP⟩ := hP.shortest
      obtain ⟨rowB, rfl⟩ := length_eq_one_iff.mp (hshortB.trans (hone b hb))
      rw [flatMap_singleton, hshortP, hn i hi, ← hn _ hmem, take_length]
  · intro ip hip hbr w hw
    have hrecv := received_broadcasted hP hB hip hbr hw
    have hmem : ip.1 ∈ broadcastedInputs inputs := by
      refine (mem_of_mem_projections hip).resolve_left fun hpart => ?_
      rw [broadcast_of_mem_partitioned hpart] at hbr
      simp at hbr
    rcases h with hempty | ⟨-, hone⟩
    · -- without partitioned tuples no worker starts
      obtain ⟨i, hi, hshort⟩ := hP.shortest
      rw [hempty i hi, length_nil, length_eq_zero_iff] at hshort
      subst hshort
      obtain ⟨_, _, _, hrow, _⟩ := mem_workersOf.mp hw
      simp at hrow
    · obtain ⟨t, ht⟩ := length_eq_one_iff.mp (hone _ hmem)
      rw [ht, mem_singleton] at hrecv
      rw [ht, hrecv]

end

end Workers

/-! ### The combined stream -/

section Combined

variable {inputs : List (ExecuteInput α)}

theorem zipInputs_open (inputs : List (ExecuteInput α)) :
    ∃ s, Returns ((zipInputs inputs).open_ (zipInputs inputs).fresh) s :=
  ⟨_, Returns.seqFin fun _ => .pure _⟩

/-- Opening the product takes the first tuple of the zipped broadcast inputs. -/
theorem combinedInput_open {s2 s2' : (zipInputs (broadcastedInputs inputs)).State} {t : Option (Tuple α)}
    (hopen : Returns ((zipInputs (broadcastedInputs inputs)).open_ (zipInputs _).fresh) s2)
    (hnext : Returns ((zipInputs (broadcastedInputs inputs)).next s2) (t, s2')) :
    ∃ s1, Returns ((combinedInput inputs).open_ (combinedInput inputs).fresh) ⟨s1, s2', t⟩ := by
  obtain ⟨s1, hopen1⟩ := zipInputs_open (partitionedInputs inputs)
  exact ⟨s1, hopen1.bind (hopen.bind (hnext.bind (.pure _)))⟩

theorem zipInputs_endless {ps : List (ExecuteInput α)} (h : ps = []) : Endless (zipInputs ps) fun _ => True := by
  subst h
  exact zip_zero_endless _ _

theorem zipInputs_nil_next {ps : List (ExecuteInput α)} (h : ps = []) (s : (zipInputs ps).State) :
    ∃ t, Returns ((zipInputs ps).next s) (some t, s) := by
  subst h
  exact ⟨_, zip_zero_next _ _ s⟩

/-- Without broadcast inputs the combined stream does not end. -/
theorem not_returns_of_broadcasted_nil (h : broadcastedInputs inputs = [])
    (workers : List (Tuple α)) : ¬ Returns (combinedInput inputs).firstDrain workers := by
  obtain ⟨s2, hopen2⟩ := zipInputs_open (broadcastedInputs inputs)
  obtain ⟨t, hnext⟩ := zipInputs_nil_next h s2
  obtain ⟨s1, hopen⟩ := combinedInput_open hopen2 hnext
  exact (cartesian_endless_right _ (zipInputs_endless h)).not_returns_firstDrain hopen
    ⟨rfl, trivial⟩ workers

/-- With inputs of both kinds, the combined stream is the product of the zipped rows. -/
theorem returns_workersOf (hP : partitionedInputs inputs ≠ []) (hB : broadcastedInputs inputs ≠ []) :
    ∃ rowsP rowsB, ZippedRows (partitionedInputs inputs) rowsP ∧ ZippedRows (broadcastedInputs inputs) rowsB ∧
      Returns (combinedInput inputs).firstDrain (workersOf rowsP rowsB) := by
  obtain ⟨rowsP, hzipP, ⟨RP⟩⟩ := exists_zippedRows hP
  obtain ⟨rowsB, hzipB, ⟨RB⟩⟩ := exists_zippedRows hB
  exact ⟨rowsP, rowsB, hzipP, hzipB, (cartesianReplay (· ++ ·) RP RB).reopens.first⟩

/-- Without partitioned inputs the left side has no end, so the product ends only if the right side
    has no tuple, and then it is empty. -/
theorem returns_of_partitioned_nil (hP : partitionedInputs inputs = []) (hB : broadcastedInputs inputs ≠ []) :
    (∃ workers, Returns (combinedInput inputs).firstDrain workers ∧ Delivers inputs workers) ↔
      ∃ b ∈ broadcastedInputs inputs, b.stream = [] := by
  obtain ⟨rowsB, hzip, ⟨R⟩⟩ := exists_zippedRows hB
  obtain ⟨s2, hopen2, hs2⟩ := R.opens R.fresh
  obtain ⟨s2', hnext2, hs2'⟩ := R.next hs2
  obtain ⟨s1, hopen⟩ := combinedInput_open hopen2 hnext2
  constructor
  · rintro ⟨workers, hret, -⟩
    obtain ⟨b, hb, hshort⟩ := hzip.shortest
    refine ⟨b, hb, length_eq_zero_iff.mp (hshort ▸ ?_)⟩
    by_contra hne
    obtain ⟨rowB, rest, rfl⟩ := exists_cons_of_length_pos (Nat.pos_of_ne_zero hne)
    exact (cartesian_endless_left _ (zipInputs_endless hP)).not_returns_firstDrain hopen
      ⟨rfl, trivial⟩ workers hret
  · rintro ⟨b, hb, hempty⟩
    have hrows : rowsB = [] := by
      have hle := hzip.le b hb
      rw [hempty, length_nil, Nat.le_zero] at hle
      exact length_eq_zero_iff.mp hle
    subst hrows
    -- the endless left side has a tuple, but there is no right tuple to go with it
    obtain ⟨t, hnext1⟩ := zipInputs_nil_next hP s1
    obtain ⟨s3, hnext3, -⟩ := R.next_nil hs2'
    have hround : Returns (cartesianRound (· ++ ·) (zipInputs (partitionedInputs inputs))
        (zipInputs (broadcastedInputs inputs)) ⟨s1, s2', none⟩) (.inr (none, ⟨s1, s3, none⟩)) :=
      hnext1.bind (hnext3.bind (.pure _))
    have hdrain : Drains (combinedInput inputs) ⟨s1, s2', none⟩ [] ⟨s1, s3, none⟩ :=
      .nil (Iterates.done hround).returns
    refine ⟨[], hdrain.firstDrain hopen, fun ts hts => addProjections_restores [] hts, ?_, ?_⟩
    · intro ip hip hpart
      rcases mem_of_mem_projections hip with hmem | hmem
      · simp [hP] at hmem
      · simp [broadcast_of_mem_broadcasted hmem] at hpart
    · intro ip _ _ w hw
      simp at hw

/-- Whatever is delivered meets the condition. -/
theorem deliverable_of_delivers {workers : List (Tuple α)}
    (hret : Returns (combinedInput inputs).firstDrain workers) (h : Delivers inputs workers) :
    Deliverable inputs := by
  have hB : broadcastedInputs inputs ≠ [] := fun hB => not_returns_of_broadcasted_nil hB _ hret
  refine ⟨hB, ?_⟩
  by_cases hP : partitionedInputs inputs = []
  · exact .inl ⟨hP, (returns_of_partitioned_nil hP hB).mp ⟨workers, hret, h⟩⟩
  · obtain ⟨rowsP, rowsB, hzipP, hzipB, hret'⟩ := returns_workersOf hP hB
    rw [hret.unique hret'] at h
    exact .inr ⟨hP, lengths_of_delivers hzipP hzipB h⟩

end Combined

/-- Two partitioned inputs, of one and of two tuples, and a broadcast input of one tuple. -/
def unevenInputs : List (ExecuteInput Unit) :=
  [⟨false, 1, [[.long 1]], by decide⟩, ⟨false, 1, [[.long 2], [.long 3]], by decide⟩,
    ⟨true, 1, [[.long 4]], by decide⟩]

end Jitq.Optimize

import Jitq.Operators.Pipelined
import Mathlib.Algebra.Order.BigOperators.Group.Finset
import Mathlib.Algebra.BigOperators.Intervals
import Mathlib.Algebra.BigOperators.Ring.Finset

namespace Jitq.Operators

open Fuel Pull List

/-! # Splitting ranges

`SplitRangeOperator`, `SplitRowDataOperator` and `SplitColumnDataOperator` share their control flow: each tuple
of the main input gives a fixed number of slices.  `splitReplay` is the list that such an operator returns.

The slices of `SplitRangeOperator` are computed in 64-bit arithmetic, where the signed difference of the bounds
and the unsigned product with the slice number can wrap.

* `rangeSource_returns_iff` — what `RangeSourceOperator` returns for one tuple, and when it ends;
* `splitsRange_of_fits` — if nothing wraps, the slices return together what the whole range does;
* `splitRange_correct` — and for a span below `2^63` this is needed, too. -/

variable {τ ρ : Type}

/-! ### The control flow of the splitting operators -/

/-- The members of the splitting operators. -/
structure SplitState (σ₁ σ₂ τ : Type) where
  mainUpstream : σ₁
  dopUpstream : σ₂
  numSlices : ℕ
  currentTuple : Option τ
  currentSliceNum : ℕ

/-- A new tuple has been read. -/
def SplitState.fetched {σ₁ σ₂ : Type} (s : SplitState σ₁ σ₂ τ) (m : σ₁) (x : τ) : SplitState σ₁ σ₂ τ :=
  { s with mainUpstream := m, currentTuple := some x, currentSliceNum := 0 }

/-- `current_slice_num_++`. -/
def SplitState.advanced {σ₁ σ₂ : Type} (s : SplitState σ₁ σ₂ τ) : SplitState σ₁ σ₂ τ :=
  { s with currentSliceNum := s.currentSliceNum + 1 }

/-- The second half of `next`: the current slice of the current tuple. -/
def emitSlice {σ₁ σ₂ : Type} (slice : τ → ℕ → ℕ → Option ρ) (s : SplitState σ₁ σ₂ τ) :
    Comp (Option ρ × SplitState σ₁ σ₂ τ) :=
  ofOption (s.currentTuple.bind fun x => slice x s.currentSliceNum s.numSlices) >>= fun ret =>
    pure (some ret, s.advanced)

/-- A splitting operator: `slice x k n` is the `k`-th one of `n` slices of `x`.  `open` reads the number of
    slices; `next` reads a new tuple after the last slice of the current one. -/
def splitOperator (slice : τ → ℕ → ℕ → Option ρ) (mainUpstream : Iter τ) (dopUpstream : Iter ℕ) : Iter ρ where
  State := SplitState mainUpstream.State dopUpstream.State τ
  fresh := ⟨mainUpstream.fresh, dopUpstream.fresh, 0, none, 0⟩
  open_ s := do
    let d ← dopUpstream.open_ s.dopUpstream
    let (ret, d) ← dopUpstream.next d
    let numSlices ← ofOption ret
    let m ← mainUpstream.open_ s.mainUpstream
    pure ⟨m, dopUpstream.close d, numSlices, s.currentTuple, numSlices⟩
  next s :=
    if s.currentSliceNum = s.numSlices then
      mainUpstream.next s.mainUpstream >>= fun
        | (none, m) => pure (none, { s with mainUpstream := m })
        | (some x, m) => emitSlice slice (s.fetched m x)
    else emitSlice slice s
  close s := { s with mainUpstream := mainUpstream.close s.mainUpstream }

section Split

variable {slice : τ → ℕ → ℕ → Option ρ} {n : ℕ} {um : Iter τ} {ud : Iter ℕ} {xs : List τ} {ds : List ℕ}

/-- The slices of one tuple from the `k`-th one on. -/
def slicesFrom (part : τ → ℕ → ρ) (n k : ℕ) (x : τ) : List ρ := (range' k (n - k)).map (part x)

theorem slicesFrom_of_lt (part : τ → ℕ → ρ) {n k : ℕ} (h : k < n) (x : τ) :
    slicesFrom part n k x = part x k :: slicesFrom part n (k + 1) x := by
  obtain ⟨m, hm⟩ : ∃ m, n - k = m + 1 := ⟨n - k - 1, by omega⟩
  have hm' : n - (k + 1) = m := by omega
  rw [slicesFrom, slicesFrom, hm, hm', range'_succ, map_cons]

/-- What an open splitting operator still has to return: the other slices of the current tuple, and the slices
    of the tuples that are left. -/
def SplitState.pending {σ₁ σ₂ : Type} (part : τ → ℕ → ρ) (s : SplitState σ₁ σ₂ τ) (rest : List τ) : List ρ :=
  (match s.currentTuple with
    | none => []
    | some x => slicesFrom part s.numSlices s.currentSliceNum x) ++
    rest.flatMap (slicesFrom part s.numSlices 0)

/-- An open splitting operator. -/
structure SplitAt (Rm : Replay um xs) (Rd : Replay ud (n :: ds)) (s : SplitState um.State ud.State τ)
    (rest : List τ) : Prop where
  main : Rm.Busy s.mainUpstream rest
  dop : Rd.Idle s.dopUpstream
  numSlices : s.numSlices = n
  sliceNum : s.currentSliceNum ≤ n
  current : ∀ x, s.currentTuple = some x → s.currentSliceNum < n → x ∈ xs
  fetched : s.currentTuple = none → s.currentSliceNum = n
  rest : rest ⊆ xs

variable {Rm : Replay um xs} {Rd : Replay ud (n :: ds)} {part : τ → ℕ → ρ}
  {s : SplitState um.State ud.State τ} {rest : List τ}

theorem SplitAt.emit (h : SplitAt Rm Rd s rest) {x : τ} (hx : s.currentTuple = some x)
    (hlt : s.currentSliceNum < n) (hslice : slice x s.currentSliceNum n = some (part x s.currentSliceNum)) :
    Returns (emitSlice slice s) (some (part x s.currentSliceNum), s.advanced) ∧ SplitAt Rm Rd s.advanced rest ∧
      s.pending part rest = part x s.currentSliceNum :: s.advanced.pending part rest := by
  refine ⟨?_, ⟨h.main, h.dop, h.numSlices, hlt, ?_, ?_, h.rest⟩, ?_⟩
  · unfold emitSlice
    rw [hx, Option.bind_some, h.numSlices, hslice]
    exact (Returns.ofOption rfl).bind (.pure _)
  · exact fun y hy _ => h.current y hy hlt
  · intro hnone
    exact nomatch hx.symm.trans hnone
  · simp only [SplitState.pending, SplitState.advanced, hx, h.numSlices, slicesFrom_of_lt part hlt, cons_append]

theorem SplitAt.next (h : SplitAt Rm Rd s rest) (hn : 0 < n)
    (hslice : ∀ x ∈ xs, ∀ k < n, slice x k n = some (part x k)) :
    ∃ (s' : SplitState um.State ud.State τ) (rest' : List τ),
      Returns ((splitOperator slice um ud).next s) ((s.pending part rest).head?, s') ∧
      SplitAt Rm Rd s' rest' ∧ s'.pending part rest' = (s.pending part rest).tail := by
  by_cases hlast : s.currentSliceNum = n
  · -- the slices of the current tuple are through
    have hpend : s.pending part rest = rest.flatMap (slicesFrom part n 0) := by
      cases hcur : s.currentTuple <;> simp [SplitState.pending, hcur, h.numSlices, hlast, slicesFrom]
    have hnext : (splitOperator slice um ud).next s = _ := if_pos (hlast.trans h.numSlices.symm)
    rw [hnext, hpend]
    cases rest with
    | nil =>
      obtain ⟨m, hm, hbusy⟩ := Rm.next_nil h.main
      refine ⟨{ s with mainUpstream := m }, [], hm.bind (.pure _),
        ⟨hbusy, h.dop, h.numSlices, h.sliceNum, h.current, h.fetched, h.rest⟩, hpend⟩
    | cons x rest =>
      obtain ⟨m, hm, hbusy⟩ := Rm.next_cons h.main
      have hmem : x ∈ xs := h.rest mem_cons_self
      have h1 : SplitAt Rm Rd (s.fetched m x) rest :=
        ⟨hbusy, h.dop, h.numSlices, Nat.zero_le n, fun y hy _ => Option.some.inj hy ▸ hmem, nofun,
          fun y hy => h.rest (mem_cons_of_mem x hy)⟩
      obtain ⟨hemit, h2, hcons⟩ := h1.emit rfl hn (hslice x hmem 0 hn)
      have hrows : (x :: rest).flatMap (slicesFrom part n 0) = (s.fetched m x).pending part rest := by
        rw [flatMap_cons, ← h.numSlices]
        rfl
      rw [hrows, hcons]
      exact ⟨_, rest, hm.bind hemit, h2, rfl⟩
  · have hlt : s.currentSliceNum < n := lt_of_le_of_ne h.sliceNum hlast
    obtain ⟨x, hx⟩ := Option.ne_none_iff_exists'.mp fun hnone => hlast (h.fetched hnone)
    obtain ⟨hemit, h2, hcons⟩ := h.emit hx hlt (hslice x (h.current x hx hlt) _ hlt)
    have hnext : (splitOperator slice um ud).next s = _ := if_neg (h.numSlices.symm ▸ hlast)
    rw [hnext, hcons]
    exact ⟨_, rest, hemit, h2, rfl⟩

/-- A splitting operator replays the slices of its tuples. -/
def splitReplay (Rm : Replay um xs) (Rd : Replay ud (n :: ds)) (hn : 0 < n) (part : τ → ℕ → ρ)
    (hslice : ∀ x ∈ xs, ∀ k < n, slice x k n = some (part x k)) :
    Replay (splitOperator slice um ud) (xs.flatMap fun x => (range n).map (part x)) where
  toServing := .ofNext (fun s ys => ∃ rest, SplitAt Rm Rd s rest ∧ ys = s.pending part rest) (by
    rintro s _ ⟨rest, h, rfl⟩
    obtain ⟨s', rest', hnext, h', htail⟩ := h.next hn hslice
    exact ⟨s', hnext, rest', h', htail.symm⟩)
  Idle s := Rm.Idle s.mainUpstream ∧ Rd.Idle s.dopUpstream
  fresh := ⟨Rm.fresh, Rd.fresh⟩
  opens := by
    rintro s ⟨hm, hd⟩
    obtain ⟨d, hopend, hd₁⟩ := Rd.opens hd
    obtain ⟨d', hnextd, hd₂⟩ := Rd.next_cons hd₁
    obtain ⟨m, hopenm, hm₁⟩ := Rm.opens hm
    refine ⟨⟨m, ud.close d', n, s.currentTuple, n⟩,
      hopend.bind (hnextd.bind ((Returns.ofOption rfl).bind (hopenm.bind (.pure _)))), xs,
      ⟨hm₁, Rd.close hd₂, rfl, le_rfl, fun _ _ h => absurd h (lt_irrefl n), fun _ => rfl, fun _ h => h⟩, ?_⟩
    have hrange : (fun x => (range n).map (part x)) = slicesFrom part n 0 := by
      funext x
      rw [slicesFrom, Nat.sub_zero, range_eq_range']
    rw [hrange]
    cases hcur : s.currentTuple <;> simp [SplitState.pending, slicesFrom]
  close := by
    rintro s ys ⟨rest, h, -⟩
    exact ⟨Rm.close h.main, h.dop⟩

end Split

/-! ### Range sources -/

variable (x : ℤ × ℤ × ℤ)

/-- `RangeSourceOperator` on an upstream that returns one tuple `(from, to, step)`. -/
def rangeSource : Iter ℤ := rangeSourceOperator id id (Iter.ofList [x])

/-- A range that comes to no end is read forever. -/
theorem rangeSource_endless :
    Endless (rangeSource x) fun s => ¬ ∃ vs, RangeRun s.to_ s.step s.current vs := by
  constructor
  intro s n r s' hs hnext
  by_cases hlt : s.current < s.to_
  · simp only [rangeSource, rangeSourceOperator, if_pos hlt, pure_run, Option.some.injEq] at hnext
    obtain ⟨rfl, rfl⟩ := hnext
    exact ⟨rfl, fun ⟨vs, hrun⟩ => hs ⟨_, .more hlt hrun⟩⟩
  · exact absurd ⟨[], .stop hlt⟩ hs

theorem rangeSource_returns_iff (vs : List ℤ) :
    Returns (rangeSource x).firstDrain vs ↔ RangeRun x.2.1 x.2.2 x.1 vs := by
  have hruns : ∀ {vs}, RangeRun x.2.1 x.2.2 x.1 vs → Returns (rangeSource x).firstDrain vs := by
    intro vs hrun
    have hvals : RangeValues id [x] vs := hrun
    have hdrain := (rangeReplay lt_irrefl (Replay.ofList [x]) hvals id).reopens.first
    rwa [map_id] at hdrain
  refine ⟨fun hret => ?_, hruns⟩
  by_cases hends : ∃ vs', RangeRun x.2.1 x.2.2 x.1 vs'
  · obtain ⟨vs', hrun⟩ := hends
    rwa [hret.unique (hruns hrun)]
  · have hopen : Returns ((rangeSource x).open_ (rangeSource x).fresh) ⟨[], x.1, x.2.1, x.2.2⟩ :=
      (Returns.pure _).bind ((Returns.pure _).bind (.pure _))
    exact absurd hret ((rangeSource_endless x).not_returns_firstDrain hopen hends vs)

theorem wrap64_le {n : ℤ} (h : -2 ^ 63 ≤ n) : wrap64 n ≤ n := by
  rcases lt_or_ge n (2 ^ 63) with hlt | hge
  · exact (wrap64_eq h hlt).le
  · have hlt : wrap64 n < _ := Int.bmod_lt (by norm_num)
    omega

theorem le_wrap64 (n : ℤ) : -2 ^ 63 ≤ wrap64 n := by
  have hle : _ ≤ wrap64 n := Int.le_bmod (by norm_num)
  exact hle

/-- A run needs at least as many values as the steps from `current` to `to_`; an overflow only throws it back. -/
theorem RangeRun.le_length {to_ step current : ℤ} {vs : List ℤ} (h : RangeRun to_ step current vs)
    (hstep : 0 < step) (hlo : -2 ^ 63 ≤ current) : to_ - current ≤ vs.length * step := by
  induction h with
  | stop hge =>
    simp
    omega
  | @more current vs hlt _ ih =>
    have hrest := ih (le_wrap64 _)
    have hback : Arith.plus current step ≤ current + step := wrap64_le (by omega)
    rw [length_cons]
    push_cast
    linarith

theorem wrap64_eq_sub {n : ℤ} (hlo : 2 ^ 63 ≤ n) (hhi : n < 2 ^ 64) : wrap64 n = n - 2 ^ 64 := by
  have hsub : wrap64 (n - 2 ^ 64) = wrap64 n := by
    exact Int.sub_bmod_right n (2 ^ 64)
  rw [← hsub]
  exact wrap64_eq (by norm_num; omega) (by norm_num; omega)

theorem wrap64_eq_add {n : ℤ} (hlo : -2 ^ 64 ≤ n) (hhi : n < -2 ^ 63) : wrap64 n = n + 2 ^ 64 := by
  have hadd : wrap64 (n + 2 ^ 64) = wrap64 n := by
    exact Int.add_bmod_right n (2 ^ 64)
  rw [← hadd]
  exact wrap64_eq (by norm_num; omega) (by norm_num; omega)

/-- Either no addition of a run overflows, or the overflow costs it `2^64` in steps. -/
theorem RangeRun.fits_or_overflows {to_ step current : ℤ} {vs : List ℤ} (h : RangeRun to_ step current vs)
    (hstep : 0 < step) (hstep' : step < 2 ^ 63) (hlo : -2 ^ 63 ≤ current) (hhi : current < 2 ^ 63) :
    current + vs.length * step < 2 ^ 63 ∨ to_ - current + 2 ^ 64 ≤ vs.length * step := by
  induction h with
  | stop _ => exact .inl (by simpa using hhi)
  | @more current vs hlt hrest ih =>
    rw [length_cons]
    push_cast
    rcases lt_or_ge (current + step) (2 ^ 63) with hfits | hover
    · have hadd : Arith.plus current step = current + step := wrap64_eq (by omega) hfits
      rw [hadd] at ih
      rcases ih (by omega) hfits with hsum | hsum
      · exact .inl (by linarith)
      · exact .inr (by linarith)
    · have hlen := hrest.le_length hstep (le_wrap64 _)
      have hwrap : Arith.plus current step = current + step - 2 ^ 64 :=
        wrap64_eq_sub hover (by norm_num at hhi hstep' ⊢; omega)
      rw [hwrap] at hlen
      exact .inr (by linarith)

/-! ### The values of a range -/

section Values

variable {from_ to_ step : ℤ}

section

variable (hstep : 0 < step)

include hstep

theorem rangeCount_add (m : ℕ) (hle : from_ + m * step ≤ to_) :
    rangeCount from_ to_ step = m + rangeCount (from_ + m * step) to_ step := by
  have hnum : to_ - from_ + step - 1 = (to_ - (from_ + m * step) + step - 1) + m * step := by ring
  have hnonneg : 0 ≤ (to_ - (from_ + m * step) + step - 1) / step := Int.ediv_nonneg (by omega) hstep.le
  unfold rangeCount
  rw [hnum, Int.add_mul_ediv_right _ _ hstep.ne']
  omega

theorem rangeCount_mul (m : ℕ) : rangeCount from_ (from_ + m * step) step = m := by
  have hadd := rangeCount_add hstep m (le_refl (from_ + m * step))
  rwa [rangeCount_of_le hstep le_rfl] at hadd

theorem length_rangeValues : (rangeValues from_ to_ step).length = rangeCount from_ to_ step := by
  rw [rangeValues, if_pos hstep, length_map, length_range]

theorem rangeValues_of_le (hle : to_ ≤ from_) : rangeValues from_ to_ step = [] := by
  rw [rangeValues, if_pos hstep, rangeCount_of_le hstep hle]
  rfl

/-- A range can be cut at a multiple of its step. -/
theorem rangeValues_append (m : ℕ) (hle : from_ + m * step ≤ to_) :
    rangeValues from_ (from_ + m * step) step ++ rangeValues (from_ + m * step) to_ step =
      rangeValues from_ to_ step := by
  simp only [rangeValues, if_pos hstep]
  rw [rangeCount_mul hstep, rangeCount_add hstep m hle, range_add, map_append, map_map]
  refine congrArg _ (map_congr_left fun i _ => ?_)
  simp only [Function.comp_apply]
  push_cast
  ring

end

/-- A run that returns as many values as its range has ends without an overflow. -/
theorem RangeRun.ends {vs : List ℤ} (h : RangeRun to_ step from_ vs) (hstep : 0 < step) (hstep' : step < 2 ^ 63)
    (hlo : -2 ^ 63 ≤ from_) (hhi : from_ < 2 ^ 63) (hlen : vs.length = rangeCount from_ to_ step) :
    RangeEnds from_ to_ step := by
  rcases le_or_gt to_ from_ with hle | hlt
  · exact .inl hle
  · have hcount := rangeCount_bounds hstep hlt.le
    rw [← hlen] at hcount
    rcases h.fits_or_overflows hstep hstep' hlo hhi with hfits | hover
    · exact .inr ⟨hstep, hlo, hlen ▸ hfits⟩
    · norm_num at hstep'
      omega

end Values

/-! ### SplitRange -/

variable (start end_ step : ℤ)

variable (sliceNum numSlices : ℕ)

/-- The number of steps before a slice, as a `size_t`: `slice_num * size_t((end - start) / step) / num_slices`.
    The difference and the quotient are signed, the product is unsigned. -/
def sliceSteps : ℕ :=
  sliceNum * ((wrap64 (end_ - start)).tdiv step % 2 ^ 64).toNat % 2 ^ 64 / numSlices

/-- `SplitRangeOperator::ComputeStartIndex`. -/
def computeStartIndex : ℤ :=
  wrap64 (start + sliceSteps start end_ step sliceNum numSlices * step)

/-- `SplitRangeOperator::ComputeEndIndex`. -/
def computeEndIndex : ℤ :=
  if sliceNum + 1 = numSlices then end_ else computeStartIndex start end_ step (sliceNum + 1) numSlices

/-- The tuple that `SplitRangeOperator::next` returns for one slice. -/
def rangeSlice (k n : ℕ) : ℤ × ℤ × ℤ :=
  (computeStartIndex x.1 x.2.1 x.2.2 k n, computeEndIndex x.1 x.2.1 x.2.2 k n, x.2.2)

/-- `SplitRangeOperator`; a division by zero slices or by a step of zero traps. -/
def splitRangeOperator (mainUpstream : Iter (ℤ × ℤ × ℤ)) (dopUpstream : Iter ℕ) : Iter (ℤ × ℤ × ℤ) :=
  splitOperator (fun x k n => if n = 0 ∨ x.2.2 = 0 then none else some (rangeSlice x k n)) mainUpstream dopUpstream

/-- The range source returns for the whole range its values, and for the slices of it together the same. -/
def SplitsRange (from_ to_ step : ℤ) (n : ℕ) : Prop :=
  Returns (rangeSource (from_, to_, step)).firstDrain (rangeValues from_ to_ step) ∧
    ∃ slices vss, Returns (splitRangeOperator (Iter.ofList [(from_, to_, step)]) (Iter.ofList [n])).firstDrain slices ∧
      slices.length = n ∧ List.Forall₂ (fun x vs => Returns (rangeSource x).firstDrain vs) slices vss ∧
      vss.flatten = rangeValues from_ to_ step

section SplitRange

variable {from_ to_ step : ℤ} {n : ℕ}

theorem splitRange_firstDrain (hstep : 0 < step) (hn : 0 < n) :
    Returns (splitRangeOperator (Iter.ofList [(from_, to_, step)]) (Iter.ofList [n])).firstDrain
      ((range n).map (rangeSlice (from_, to_, step) · n)) := by
  have R : Replay (splitRangeOperator (Iter.ofList [(from_, to_, step)]) (Iter.ofList [n])) _ :=
    splitReplay (Replay.ofList [(from_, to_, step)]) (Replay.ofList [n]) hn (fun x k => rangeSlice x k n) (by
      intro x hx k _
      rw [mem_singleton.mp hx]
      exact if_neg (not_or.mpr ⟨hn.ne', hstep.ne'⟩))
  have hdrain := R.reopens.first
  rwa [flatMap_singleton] at hdrain

theorem splitsRange_iff (hstep : 0 < step) (hn : 0 < n) : SplitsRange from_ to_ step n ↔
    RangeRun to_ step from_ (rangeValues from_ to_ step) ∧
      ∃ vs : ℕ → List ℤ, (∀ k < n, RangeRun (computeEndIndex from_ to_ step k n) step
        (computeStartIndex from_ to_ step k n) (vs k)) ∧ (range n).flatMap vs = rangeValues from_ to_ step := by
  unfold SplitsRange
  rw [rangeSource_returns_iff]
  refine and_congr_right fun _ => ?_
  constructor
  · rintro ⟨slices, vss, hslices, -, hvss, hflatten⟩
    obtain rfl := hslices.unique (splitRange_firstDrain hstep hn)
    have hlen : vss.length = n := by simpa using hvss.length_eq.symm
    refine ⟨fun k => vss.getD k [], fun k hk => ?_, ?_⟩
    · have hk' : k < vss.length := by omega
      have hget := (forall₂_iff_get.mp hvss).2 k (by simpa using hk) hk'
      rw [rangeSource_returns_iff] at hget
      simpa [rangeSlice, getD_eq_getElem?_getD, hk'] using hget
    · rw [flatMap_def, ← hflatten]
      refine congrArg flatten (ext_getElem (by simp [hlen]) fun k h1 h2 => ?_)
      simp [getD_eq_getElem?_getD, h2]
  · rintro ⟨vs, hvs, hflatten⟩
    refine ⟨_, (range n).map vs, splitRange_firstDrain hstep hn, by simp, ?_, hflatten⟩
    rw [forall₂_map_left_iff, forall₂_map_right_iff, forall₂_same]
    intro k hk
    exact (rangeSource_returns_iff _ _).mpr (hvs k (mem_range.mp hk))

/-- The bounds are `long`s, and the step is positive. -/
structure RangeBounds (from_ to_ step : ℤ) : Prop where
  fromLow : -2 ^ 63 ≤ from_
  fromHigh : from_ < 2 ^ 63
  toHigh : to_ < 2 ^ 63
  toLow : -2 ^ 63 ≤ to_
  stepPos : 0 < step
  stepHigh : step < 2 ^ 63

theorem sliceSteps_zero (from_ to_ step : ℤ) (n : ℕ) : sliceSteps from_ to_ step 0 n = 0 := by
  rw [sliceSteps, Nat.zero_mul, Nat.zero_mod, Nat.zero_div]

/-- The slices in front of the last one are cut at multiples of the step. -/
theorem flatMap_rangeValues (hstep : 0 < step) {steps : ℕ → ℕ} (hzero : steps 0 = 0)
    (hmono : Monotone steps) (k : ℕ) :
    ((range k).flatMap fun j => rangeValues (from_ + steps j * step) (from_ + steps (j + 1) * step) step) =
      rangeValues from_ (from_ + steps k * step) step := by
  induction k with
  | zero =>
    rw [hzero, rangeValues_of_le hstep (by simp)]
    rfl
  | succ k ih =>
    have hle : (steps k : ℤ) * step ≤ steps (k + 1) * step :=
      mul_le_mul_of_nonneg_right (by exact_mod_cast hmono k.le_succ) hstep.le
    rw [range_succ, flatMap_append, ih, flatMap_singleton]
    exact rangeValues_append hstep (steps k) (by omega)

/-- A cut at a multiple of the step leaves ranges that end. -/
theorem RangeEnds.cut (hb : RangeBounds from_ to_ step) (h : RangeEnds from_ to_ step) {m : ℕ}
    (hle : m = 0 ∨ from_ + m * step ≤ to_) : RangeEnds (from_ + m * step) to_ step := by
  rcases hle with rfl | hle
  · simpa using h
  rcases h with hto | ⟨-, -, hhi⟩
  · have hnonneg : 0 ≤ (m : ℤ) * step := mul_nonneg (Int.natCast_nonneg m) hb.stepPos.le
    exact .inl (by omega)
  · refine .inr ⟨hb.stepPos, ?_, ?_⟩
    · have hnonneg : 0 ≤ (m : ℤ) * step := mul_nonneg (Int.natCast_nonneg m) hb.stepPos.le
      have := hb.fromLow
      omega
    · rw [rangeCount_add hb.stepPos m hle] at hhi
      push_cast at hhi
      linarith

/-- Slices that start at growing multiples of the step return together what the whole range does. -/
theorem splitsRange_of_steps (hb : RangeBounds from_ to_ step) (hends : RangeEnds from_ to_ step) {m : ℕ}
    (steps : ℕ → ℕ) (hzero : steps 0 = 0) (hmono : Monotone steps)
    (hstart : ∀ k ≤ m, computeStartIndex from_ to_ step k (m + 1) = from_ + steps k * step)
    (hhi : from_ + steps m * step < 2 ^ 63) (hlast : steps m = 0 ∨ from_ + steps m * step ≤ to_) :
    SplitsRange from_ to_ step (m + 1) := by
  have hpos : 0 < m + 1 := by omega
  rw [splitsRange_iff hb.stepPos hpos]
  refine ⟨hends.run, fun k => rangeValues (from_ + steps k * step)
    (if k = m then to_ else from_ + steps (k + 1) * step) step, fun k hk => ?_, ?_⟩
  · rw [hstart k (Nat.le_of_lt_succ hk), computeEndIndex]
    by_cases hkm : k = m
    · subst hkm
      simp only [if_true]
      exact (hends.cut hb hlast).run
    · have hlt : k < m := by omega
      have hne : ¬ k + 1 = m + 1 := by omega
      beta_reduce
      rw [if_neg hkm, if_neg hne, hstart (k + 1) hlt]
      obtain ⟨d, hd⟩ := Nat.exists_eq_add_of_le (hmono k.le_succ)
      have hend : from_ + (steps (k + 1) : ℤ) * step = from_ + steps k * step + d * step := by
        rw [hd]
        push_cast
        ring
      have hnonneg : 0 ≤ (steps k : ℤ) * step := mul_nonneg (Int.natCast_nonneg _) hb.stepPos.le
      have hle : (steps (k + 1) : ℤ) * step ≤ steps m * step :=
        mul_le_mul_of_nonneg_right (by exact_mod_cast hmono hlt) hb.stepPos.le
      have := hb.fromLow
      refine RangeEnds.run (.inr ⟨hb.stepPos, by omega, ?_⟩)
      rw [hend, rangeCount_mul hb.stepPos]
      omega
  · rw [range_succ, flatMap_append, flatMap_singleton, if_pos rfl]
    have hinit : ((range m).flatMap fun k => rangeValues (from_ + steps k * step)
        (if k = m then to_ else from_ + steps (k + 1) * step) step) = rangeValues from_ (from_ + steps m * step) step := by
      rw [← flatMap_rangeValues hb.stepPos hzero hmono m]
      refine flatMap_congr fun k hk => ?_
      rw [if_neg (mem_range.mp hk).ne]
    rw [hinit]
    rcases hlast with hnil | hle
    · rw [hnil, rangeValues_of_le hb.stepPos (by simp)]
      simp
    · exact rangeValues_append hb.stepPos (steps m) hle

/-- Nothing wraps: there is one slice only, or the slices in front of the last one are empty, or the difference
    of the bounds and its multiples fit. -/
def SplitFits (from_ to_ step : ℤ) (n : ℕ) : Prop :=
  n = 1 ∨ |to_ - from_| < step ∨ 2 ^ 64 < |to_ - from_| + step ∨
    (from_ ≤ to_ ∧ to_ - from_ < 2 ^ 63 ∧ (n - 1 : ℤ) * ((to_ - from_) / step) < 2 ^ 64)

theorem sliceSteps_eq_zero (hstep : 0 < step) (h : |wrap64 (to_ - from_)| < step) (k n : ℕ) :
    sliceSteps from_ to_ step k n = 0 := by
  have hdiv : (wrap64 (to_ - from_)).tdiv step = 0 := by
    rw [← Int.natAbs_eq_zero, Int.natAbs_tdiv]
    obtain ⟨hlo, hhi⟩ := abs_lt.mp h
    exact Nat.div_eq_of_lt (by omega)
  rw [sliceSteps, hdiv]
  simp

/-- The signed difference is small: it is so itself, or it is so after the wrap. -/
theorem abs_wrap64_lt (hb : RangeBounds from_ to_ step)
    (h : |to_ - from_| < step ∨ 2 ^ 64 < |to_ - from_| + step) : |wrap64 (to_ - from_)| < step := by
  obtain ⟨h1, h2, h3, h4, h5, h6⟩ := hb
  rw [abs_lt]
  rcases h with hlt | hgt
  · obtain ⟨hlo, hhi⟩ := abs_lt.mp hlt
    rw [wrap64_eq (by norm_num; omega) (by norm_num; omega)]
    exact ⟨hlo, hhi⟩
  · norm_num at hgt
    rcases abs_cases (to_ - from_) with ⟨habs, -⟩ | ⟨habs, -⟩
    · rw [wrap64_eq_sub (by norm_num; omega) (by norm_num; omega)]
      omega
    · rw [wrap64_eq_add (by norm_num; omega) (by norm_num; omega)]
      omega

/-- A span below `2^63` is what it should be, and so is its quotient by the step. -/
theorem exists_quotient (hb : RangeBounds from_ to_ step) (hle : from_ ≤ to_) (hspan : to_ - from_ < 2 ^ 63) :
    ∃ q : ℕ, (to_ - from_) / step = q ∧ q < 2 ^ 63 ∧
      ∀ k n, sliceSteps from_ to_ step k n = k * q % 2 ^ 64 / n := by
  obtain ⟨q, hq⟩ := Int.eq_ofNat_of_zero_le (Int.ediv_nonneg (show 0 ≤ to_ - from_ by omega) hb.stepPos.le)
  have hle' : (q : ℤ) ≤ to_ - from_ := hq ▸ Int.ediv_le_self _ (by omega)
  have hdiv : ((wrap64 (to_ - from_)).tdiv step % 2 ^ 64).toNat = q := by
    rw [wrap64_eq (by norm_num at hspan ⊢; omega) hspan, Int.tdiv_eq_ediv_of_nonneg (by omega), hq]
    omega
  exact ⟨q, hq, by omega, fun k n => by rw [sliceSteps, hdiv]⟩

/-- A slice that is not behind the last multiple of the step starts at one. -/
theorem computeStartIndex_of_le (hb : RangeBounds from_ to_ step) {q k n : ℕ} (hq : (to_ - from_) / step = q)
    (hk : sliceSteps from_ to_ step k n ≤ q) :
    computeStartIndex from_ to_ step k n = from_ + sliceSteps from_ to_ step k n * step ∧
      from_ + sliceSteps from_ to_ step k n * step ≤ to_ := by
  have hmul : (sliceSteps from_ to_ step k n : ℤ) * step ≤ q * step :=
    mul_le_mul_of_nonneg_right (by exact_mod_cast hk) hb.stepPos.le
  have hspan : (q : ℤ) * step ≤ to_ - from_ := hq ▸ Int.ediv_mul_le _ hb.stepPos.ne'
  have hnonneg : 0 ≤ (sliceSteps from_ to_ step k n : ℤ) * step := mul_nonneg (Int.natCast_nonneg _) hb.stepPos.le
  have hlow := hb.fromLow
  have hhigh := hb.toHigh
  exact ⟨wrap64_eq (by omega) (by omega), by omega⟩

theorem splitsRange_of_fits (hb : RangeBounds from_ to_ step) (hn : 0 < n) (hends : RangeEnds from_ to_ step)
    (hfits : SplitFits from_ to_ step n) : SplitsRange from_ to_ step n := by
  obtain ⟨m, rfl⟩ : ∃ m, n = m + 1 := ⟨n - 1, by omega⟩
  -- with no steps before any slice, all slices but the last one are empty
  have hempty : (∀ k ≤ m, sliceSteps from_ to_ step k (m + 1) = 0) → SplitsRange from_ to_ step (m + 1) := by
    intro hzero
    refine splitsRange_of_steps hb hends (fun _ => 0) rfl monotone_const (fun k hk => ?_)
      (by simpa using hb.fromHigh) (.inl rfl)
    rw [computeStartIndex, hzero k hk]
    simpa using wrap64_eq hb.fromLow hb.fromHigh
  rcases hfits with hone | hsmall | hwrapped | ⟨hle, hspan, hprod⟩
  · refine hempty fun k hk => ?_
    obtain rfl : k = 0 := by omega
    exact sliceSteps_zero ..
  · exact hempty fun k _ => sliceSteps_eq_zero hb.stepPos (abs_wrap64_lt hb (.inl hsmall)) k _
  · exact hempty fun k _ => sliceSteps_eq_zero hb.stepPos (abs_wrap64_lt hb (.inr hwrapped)) k _
  · obtain ⟨q, hq, -, hsteps⟩ := exists_quotient hb hle hspan
    have hmq : m * q < 2 ^ 64 := by
      rw [hq] at hprod
      push_cast at hprod
      rw [add_sub_cancel_right] at hprod
      exact_mod_cast hprod
    have hsteps : ∀ k ≤ m, sliceSteps from_ to_ step k (m + 1) = k * q / (m + 1) := fun k hk => by
      rw [hsteps, Nat.mod_eq_of_lt ((Nat.mul_le_mul_right q hk).trans_lt hmq)]
    have hstart : ∀ k ≤ m, _ := fun k hk => computeStartIndex_of_le (k := k) (n := m + 1) hb hq <| by
      rw [hsteps k hk]
      exact Nat.div_le_of_le_mul (Nat.mul_le_mul_right q (Nat.le_succ_of_le hk))
    have hlast := (hstart m le_rfl).2
    rw [hsteps m le_rfl] at hlast
    refine splitsRange_of_steps hb hends (fun k => k * q / (m + 1)) (by simp) (fun j k hjk => ?_) (fun k hk => ?_)
      (hlast.trans_lt hb.toHigh) (.inr hlast)
    · exact Nat.div_le_div_right (Nat.mul_le_mul_right q hjk)
    · rw [(hstart k hk).1, hsteps k hk]

/-- If the products wrap, some slice starts before the one in front of it.  The quotient `q` and the number of
    slices are below `2^63`, so that the wrap takes off more than one step. -/
theorem exists_drop {q : ℕ} (hq : q < 2 ^ 63) (hn : n < 2 ^ 63) (hprod : 2 ^ 64 ≤ (n - 1) * q) :
    ∃ k, k + 1 < n ∧ (k + 1) * q % 2 ^ 64 / n + 1 ≤ k * q % 2 ^ 64 / n := by
  have hpos : 0 < q := Nat.pos_of_ne_zero fun h => by simp [h] at hprod
  -- `k + 1` is the first slice whose product wraps
  obtain ⟨k, hbefore, hwraps⟩ : ∃ k, k * q < 2 ^ 64 ∧ 2 ^ 64 ≤ k * q + q := by
    have hdiv := Nat.div_add_mod' (2 ^ 64 - 1) q
    have hmod := Nat.mod_lt (2 ^ 64 - 1) hpos
    exact ⟨(2 ^ 64 - 1) / q, by omega, by omega⟩
  have hkn : k + 1 < n := by
    by_contra hge
    have hle : (n - 1) * q ≤ k * q := Nat.mul_le_mul_right q (by omega)
    omega
  refine ⟨k, hkn, ?_⟩
  rw [Nat.succ_mul, Nat.mod_eq_of_lt hbefore]
  generalize k * q = x at hbefore hwraps
  have hwrap : (x + q) % 2 ^ 64 = x + q - 2 ^ 64 := by
    rw [Nat.mod_eq_sub_mod hwraps]
    exact Nat.mod_eq_of_lt (by omega)
  rw [hwrap, ← Nat.add_div_right _ (by omega)]
  exact Nat.div_le_div_right (by omega)

theorem length_flatMap_range (vs : ℕ → List ℤ) (n : ℕ) :
    (((range n).flatMap vs).length : ℤ) = ∑ k ∈ Finset.range n, ((vs k).length : ℤ) := by
  induction n with
  | zero => rfl
  | succ n ih =>
    rw [range_succ, flatMap_append, length_append, flatMap_singleton, Finset.sum_range_succ, ← ih]
    rfl

/-- A slice that starts before the one in front of it makes the slices return too many values. -/
theorem not_drop_of_runs (b : ℕ → ℤ) (vs : ℕ → List ℤ) (hstep : 0 < step) (hlo : ∀ k < n, -2 ^ 63 ≤ b k)
    (hruns : ∀ k < n, RangeRun (b (k + 1)) step (b k) (vs k)) (hle : b 0 ≤ b n)
    (hvals : (range n).flatMap vs = rangeValues (b 0) (b n) step) : ∀ k < n, b k < b (k + 1) + step := by
  intro k hk
  have hnonneg : ∀ j ∈ Finset.range n, 0 ≤ (vs j).length * step - (b (j + 1) - b j) := fun j hj => by
    have hlen := (hruns j (Finset.mem_range.mp hj)).le_length hstep (hlo j (Finset.mem_range.mp hj))
    omega
  have hsum : ∑ j ∈ Finset.range n, ((vs j).length * step - (b (j + 1) - b j)) =
      rangeCount (b 0) (b n) step * step - (b n - b 0) := by
    rw [Finset.sum_sub_distrib, Finset.sum_range_sub, ← Finset.sum_mul, ← length_flatMap_range, hvals,
      length_rangeValues hstep]
  have hterm := Finset.single_le_sum hnonneg (Finset.mem_range.mpr hk)
  have hcount := (rangeCount_bounds hstep hle).2
  have hlen : 0 ≤ ((vs k).length : ℤ) * step := mul_nonneg (Int.natCast_nonneg _) hstep.le
  linarith

theorem splitFits_of_splitsRange (hb : RangeBounds from_ to_ step) (hn : 0 < n) (hn' : n < 2 ^ 63)
    (hlt : from_ < to_) (hspan : to_ - from_ < 2 ^ 63) (h : SplitsRange from_ to_ step n) :
    RangeEnds from_ to_ step ∧ SplitFits from_ to_ step n := by
  obtain ⟨hwhole, vs, hruns, hvals⟩ := (splitsRange_iff hb.stepPos hn).mp h
  refine ⟨hwhole.ends hb.stepPos hb.stepHigh hb.fromLow hb.fromHigh (length_rangeValues hb.stepPos), ?_⟩
  refine .inr (.inr (.inr ⟨hlt.le, hspan, ?_⟩))
  obtain ⟨q, hq, hq63, hsteps⟩ := exists_quotient hb hlt.le hspan
  rw [hq]
  by_contra hprod
  have hprod' : 2 ^ 64 ≤ (n - 1) * q := by
    have hcast : ((n - 1 : ℕ) : ℤ) = n - 1 := by omega
    rw [← hcast] at hprod
    exact_mod_cast not_lt.mp hprod
  obtain ⟨k, hk, hdrop⟩ := exists_drop hq63 hn' hprod'
  -- no slice starts behind the last multiple of the step
  have hstart : ∀ j, computeStartIndex from_ to_ step j n = from_ + sliceSteps from_ to_ step j n * step := by
    intro j
    refine (computeStartIndex_of_le hb hq ?_).1
    have hnq : (n - 1) * q ≤ n * q := Nat.mul_le_mul_right q (Nat.sub_le n 1)
    rw [hsteps]
    exact Nat.div_le_of_le_mul ((Nat.mod_lt _ (by norm_num)).le.trans (hprod'.trans hnq))
  have hbounds := not_drop_of_runs (n := n)
    (fun j => if j = n then to_ else computeStartIndex from_ to_ step j n) vs hb.stepPos
    (fun j hj => ?_) (fun j hj => ?_) ?_ ?_ k (by omega)
  · rw [if_neg (by omega), if_neg (by omega), hstart, hstart, hsteps, hsteps] at hbounds
    have hcast : ((((k + 1) * q % 2 ^ 64 / n + 1 : ℕ) : ℤ)) * step ≤ ((k * q % 2 ^ 64 / n : ℕ) : ℤ) * step :=
      mul_le_mul_of_nonneg_right (by exact_mod_cast hdrop) hb.stepPos.le
    push_cast at hcast hbounds
    linarith
  · rw [if_neg hj.ne]
    exact le_wrap64 _
  · rw [if_neg hj.ne]
    exact hruns j hj
  · rw [if_neg hn.ne, if_pos rfl, hstart, sliceSteps_zero]
    simpa using hlt.le
  · rw [if_neg hn.ne, if_pos rfl, hvals, hstart, sliceSteps_zero]
    simp

theorem splitRange_correct (hb : RangeBounds from_ to_ step) (hn : 0 < n) (hn' : n < 2 ^ 63) :
    (SplitsRange from_ to_ step n → RangeEnds from_ to_ step) ∧
      (RangeEnds from_ to_ step ∧ SplitFits from_ to_ step n → SplitsRange from_ to_ step n) ∧
      (from_ < to_ → to_ - from_ < 2 ^ 63 →
        (SplitsRange from_ to_ step n ↔ RangeEnds from_ to_ step ∧ SplitFits from_ to_ step n)) := by
  have hfits : RangeEnds from_ to_ step ∧ SplitFits from_ to_ step n → SplitsRange from_ to_ step n :=
    fun h => splitsRange_of_fits hb hn h.1 h.2
  refine ⟨fun h => ?_, hfits, fun hlt hspan => ⟨splitFits_of_splitsRange hb hn hn' hlt hspan, hfits⟩⟩
  obtain ⟨hwhole, -⟩ := (splitsRange_iff hb.stepPos hn).mp h
  exact hwhole.ends hb.stepPos hb.stepHigh hb.fromLow hb.fromHigh (length_rangeValues hb.stepPos)

theorem splitRange_correct_ten : SplitsRange 0 10 3 4 := by
  have hb : RangeBounds 0 10 3 := by constructor <;> norm_num
  refine (splitRange_correct hb (by norm_num) (by norm_num)).2.1 ⟨.inr ⟨by norm_num, by norm_num, ?_⟩, ?_⟩
  · decide
  · exact .inr (.inr (.inr ⟨by norm_num, by norm_num, by norm_num⟩))

/-- The empty range from 10 to 0 is split into an empty slice and one of `2^63 - 5` values. -/
theorem not_splitsRange_backwards : ¬ SplitsRange 10 0 1 2 := by
  intro h
  obtain ⟨-, vs, hruns, hvals⟩ := (splitsRange_iff (by norm_num) (by norm_num)).mp h
  have hnil : vs 1 = [] := by
    rw [rangeValues_of_le (by norm_num) (by norm_num)] at hvals
    simp only [flatMap_eq_nil_iff, mem_range] at hvals
    exact hvals 1 (by norm_num)
  have hlen := (hruns 1 (by norm_num)).le_length (by norm_num) (le_wrap64 _)
  rw [hnil] at hlen
  exact absurd hlen (by decide)

end SplitRange

end Jitq.Operators

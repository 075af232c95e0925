import Jitq.Data.Atomic
import Jitq.Lib.Pull
import Mathlib.Tactic.Positivity
import Mathlib.Tactic.Linarith
import Mathlib.Tactic.NormNum
import Mathlib.Tactic.Ring

namespace Jitq.Operators

open Fuel Pull Option

/-! # Pipelined operators — Map, Filter, the scans, RangeSource, Zip, Cartesian

The generated operators that keep at most a position in their input: none of them has a container
that outlives an `open`.  Each comes as the code has it (an iterator over its upstreams), with the
list it returns, and with the `Replay` that its upstreams' replays give it.

The C++ templates are generic in the tuple types; so are the models.  Field accesses
(`v0`, `offsets[0]`, …) and the construction of result tuples are arguments. -/

variable {τ τ₁ τ₂ ρ : Type}

/-! ### Map and Filter -/

/-- `MapOperator`. -/
def mapOperator (mapFunction : τ → ρ) (upstream : Iter τ) : Iter ρ where
  State := upstream.State
  fresh := upstream.fresh
  open_ := upstream.open_
  next s := upstream.next s >>= fun
    | (some ret, s') => pure (some (mapFunction ret), s')
    | (none, s') => pure (none, s')
  close := upstream.close

/-- A map replays the image of its input. -/
def mapReplay {u : Iter τ} {xs : List τ} (R : Replay u xs) (f : τ → ρ) : Replay (mapOperator f u) (xs.map f) where
  Idle := R.Idle
  Busy s ys := ∃ xs', R.Busy s xs' ∧ ys = xs'.map f
  fresh := R.fresh
  opens h := by
    obtain ⟨s', hopen, hs'⟩ := R.opens h
    exact ⟨s', hopen, xs, hs', rfl⟩
  next_nil := by
    rintro s ⟨xs', h, hnil⟩
    obtain rfl : xs' = [] := List.map_eq_nil_iff.mp hnil.symm
    obtain ⟨s', hnext, hs'⟩ := R.next_nil h
    exact ⟨s', hnext.bind (.pure _), [], hs', rfl⟩
  next_cons := by
    rintro s y ys ⟨xs', h, hcons⟩
    obtain ⟨x, xs', rfl, rfl, rfl⟩ := List.map_eq_cons_iff.mp hcons.symm
    obtain ⟨s', hnext, hs'⟩ := R.next_cons h
    exact ⟨s', hnext.bind (.pure _), xs', hs', rfl⟩
  close := by
    rintro s ys ⟨xs', h, -⟩
    exact R.close h

/-- An operator whose `next` searches its upstream for the next tuple that `g` accepts. -/
def searchOperator (g : τ → Option ρ) (upstream : Iter τ) : Iter ρ where
  State := upstream.State
  fresh := upstream.fresh
  open_ := upstream.open_
  next := upstream.findNext g
  close := upstream.close

def searchServing {u : Iter τ} (S : Serving u) (g : τ → Option ρ) : Serving (searchOperator g u) :=
  .ofNext (fun s ys => ∃ xs', S.Busy s xs' ∧ ys = xs'.filterMap g) (by
    rintro s _ ⟨xs', h, rfl⟩
    obtain ⟨s', xs'', hnext, hs', htail⟩ := S.findNext g h
    exact ⟨s', hnext, xs'', hs', htail.symm⟩)

def searchReplay {u : Iter τ} {xs : List τ} (R : Replay u xs) (g : τ → Option ρ) :
    Replay (searchOperator g u) (xs.filterMap g) where
  toServing := searchServing R.toServing g
  Idle := R.Idle
  fresh := R.fresh
  opens h := by
    obtain ⟨s', hopen, hs'⟩ := R.opens h
    exact ⟨s', hopen, xs, hs', rfl⟩
  close := by
    rintro s ys ⟨xs', h, -⟩
    exact R.close h

/-- `FilterOperator`. -/
def filterOperator (function : τ → Bool) (upstream : Iter τ) : Iter τ :=
  searchOperator (fun ret => if function ret then some ret else none) upstream

/-- A filter replays the tuples of its input that pass. -/
def filterReplay {u : Iter τ} {xs : List τ} (R : Replay u xs) (f : τ → Bool) :
    Replay (filterOperator f u) (xs.filter f) := by
  have h : xs.filterMap (fun x => if f x then some x else none) = xs.filter f :=
    congrFun (List.filterMap_eq_filter (p := f)) xs
  exact h ▸ searchReplay R _

/-! ### RowScan and ColumnScan -/

/-- The members of `RowScanOperator` and `ColumnScanOperator`; `values` is the input whose data
    pointers were read last, `none` the null pointers that `open` stores. -/
structure ScanState (σ τ : Type) where
  upstream : σ
  currentIndex : ℕ
  lastIndex : ℕ
  values : Option τ

variable (offset shape : τ → ℕ)

variable (lookup : τ → ℕ → Option ρ)

/-- One round of a scan's `next`: read the next input while there is no index below `last_index_`,
    else look one result up.  `offset` and `shape` are `offsets[0]` and `shape[0]` of the input's
    first array; `lookup x i` builds the result tuple for index `i` and fails outside the data. -/
def scanRound (upstream : Iter τ)
    (s : ScanState upstream.State τ) :
    Comp (ScanState upstream.State τ ⊕ (Option ρ × ScanState upstream.State τ)) :=
  if s.currentIndex ≥ s.lastIndex then
    upstream.next s.upstream >>= fun
      | (none, u) => pure (.inr (none, { s with upstream := u }))
      | (some input, u) => pure (.inl ⟨u, offset input, offset input + shape input, some input⟩)
  else
    ofOption (s.values.bind fun input => lookup input s.currentIndex) >>= fun r =>
      pure (.inr (some r, { s with currentIndex := s.currentIndex + 1 }))

/-- The control flow of `RowScanOperator` and `ColumnScanOperator`. -/
def scanOperator (upstream : Iter τ) : Iter ρ where
  State := ScanState upstream.State τ
  fresh := ⟨upstream.fresh, 0, 0, none⟩
  open_ s := upstream.open_ s.upstream >>= fun u => pure ⟨u, 0, 0, none⟩
  next := iterate (scanRound offset shape lookup upstream)
  close s := { s with upstream := upstream.close s.upstream }

/-- `rows` are the result tuples for one input, all of whose indexes are inside the data. -/
def ScanRows (input : τ) (rows : List ρ) : Prop :=
  List.Forall₂ (fun i r => lookup input i = some r) (List.range' (offset input) (shape input)) rows

/-- `cur` are the rows that are left of the input read last. -/
def ScanState.Pending {σ : Type} (lookup : τ → ℕ → Option ρ) (s : ScanState σ τ) (cur : List ρ) : Prop :=
  List.Forall₂ (fun i r => (s.values.bind fun input => lookup input i) = some r)
    (List.range' s.currentIndex (s.lastIndex - s.currentIndex)) cur

section Scan

variable {offset shape : τ → ℕ} {lookup : τ → ℕ → Option ρ} {u : Iter τ} {xs : List τ}

theorem ScanState.Pending.done {σ : Type} {s : ScanState σ τ} (h : s.Pending lookup []) :
    s.currentIndex ≥ s.lastIndex := by
  have hlen := h.length_eq
  simp only [List.length_range', List.length_nil] at hlen
  omega

theorem ScanState.Pending.more {σ : Type} {s : ScanState σ τ} {r : ρ} {cur : List ρ}
    (h : s.Pending lookup (r :: cur)) :
    s.currentIndex < s.lastIndex ∧ (s.values.bind fun input => lookup input s.currentIndex) = some r ∧
      ({ s with currentIndex := s.currentIndex + 1 } : ScanState σ τ).Pending lookup cur := by
  have hlen := h.length_eq
  simp only [List.length_range', List.length_cons] at hlen
  have hlt : s.currentIndex < s.lastIndex := by omega
  obtain ⟨k, hk⟩ : ∃ k, s.lastIndex - s.currentIndex = k + 1 := ⟨cur.length, hlen⟩
  unfold ScanState.Pending at h
  rw [hk, List.range'_succ, List.forall₂_cons] at h
  refine ⟨hlt, h.1, ?_⟩
  have hk' : s.lastIndex - (s.currentIndex + 1) = k := by omega
  simpa only [ScanState.Pending, hk'] using h.2

theorem scanRound_emit {s : ScanState u.State τ} {r : ρ} {cur : List ρ} (h : s.Pending lookup (r :: cur)) :
    Returns (scanRound offset shape lookup u s) (.inr (some r, { s with currentIndex := s.currentIndex + 1 })) := by
  obtain ⟨hlt, hlook, -⟩ := h.more
  rw [scanRound, if_neg (by omega)]
  exact (Returns.ofOption hlook).bind (.pure _)

/-- What an open scan has left: rows of the input read last, and those of the inputs to come. -/
def ScanAt (lookup : τ → ℕ → Option ρ) (R : Replay u xs) (rows : τ → List ρ) (s : ScanState u.State τ)
    (zs : List ρ) : Prop :=
  ∃ cur ys, s.Pending lookup cur ∧ R.Busy s.upstream ys ∧ ys ⊆ xs ∧ zs = cur ++ ys.flatMap rows

/-- One `next` of a scan: the rounds skip the inputs without rows.  The recursion is on the inputs
    that are left. -/
theorem scan_next (R : Replay u xs) {rows : τ → List ρ} (hrows : ∀ x ∈ xs, ScanRows offset shape lookup x (rows x))
    {s : ScanState u.State τ} {cur : List ρ} {ys : List τ}
    (hcur : s.Pending lookup cur) (hbusy : R.Busy s.upstream ys) (hsub : ys ⊆ xs) :
    ∃ s', Iterates (scanRound offset shape lookup u) s ((cur ++ ys.flatMap rows).head?, s') ∧
      ScanAt lookup R rows s' (cur ++ ys.flatMap rows).tail := by
  cases cur with
  | cons r cur => exact ⟨_, .done (scanRound_emit hcur), cur, ys, hcur.more.2.2, hbusy, hsub, rfl⟩
  | nil =>
    cases ys with
    | nil =>
      obtain ⟨u', hnext, hu'⟩ := R.next_nil hbusy
      refine ⟨{ s with upstream := u' }, .done ?_, [], [], hcur, hu', hsub, rfl⟩
      rw [scanRound, if_pos hcur.done]
      exact hnext.bind (.pure _)
    | cons y ys =>
      obtain ⟨u', hnext, hu'⟩ := R.next_cons hbusy
      let s1 : ScanState u.State τ := ⟨u', offset y, offset y + shape y, some y⟩
      have hround : Returns (scanRound offset shape lookup u s) (.inl s1) := by
        rw [scanRound, if_pos hcur.done]
        exact hnext.bind (.pure _)
      have hs1 : s1.Pending lookup (rows y) := by
        have hy := hrows y (hsub List.mem_cons_self)
        simpa only [ScanState.Pending, ScanRows, s1, Nat.add_sub_cancel_left, bind_some] using hy
      obtain ⟨s', hit, hs'⟩ := scan_next R hrows hs1 hu' fun x hx => hsub (List.mem_cons_of_mem y hx)
      exact ⟨s', .step hround hit, hs'⟩
termination_by ys.length

/-- A scan replays, for each input in order, the rows of that input. -/
def scanReplay (R : Replay u xs) (rows : τ → List ρ) (hrows : ∀ x ∈ xs, ScanRows offset shape lookup x (rows x)) :
    Replay (scanOperator offset shape lookup u) (xs.flatMap rows) where
  toServing := .ofNext (ScanAt lookup R rows) (by
    rintro s _ ⟨cur, ys, hcur, hbusy, hsub, rfl⟩
    obtain ⟨s', hit, hs'⟩ := scan_next R hrows hcur hbusy hsub
    exact ⟨s', hit.returns, hs'⟩)
  Idle s := R.Idle s.upstream
  fresh := R.fresh
  opens h := by
    obtain ⟨u', hopen, hu'⟩ := R.opens h
    exact ⟨_, hopen.bind (.pure _), [], xs, .nil, hu', fun _ h => h, rfl⟩
  close := by
    rintro s zs ⟨cur, ys, -, hbusy, -, -⟩
    exact R.close hbusy

end Scan

/-! ### RangeSource -/

section Range

variable {V : Type} [LT V] [DecidableLT V] [Arith V] [Inhabited V]

/-- The members of `RangeSourceOperator`. -/
structure RangeState (σ V : Type) where
  upstream : σ
  current : V
  to_ : V
  step : V

/-- `RangeSourceOperator` on the values of any type: only the first tuple of the upstream is read,
    and `bounds` gives its fields `v0` (from), `v1` (to) and `v2` (step). -/
def rangeSourceOperator (bounds : τ → V × V × V) (tuple : V → ρ) (upstream : Iter τ) : Iter ρ where
  State := RangeState upstream.State V
  fresh := ⟨upstream.fresh, default, default, default⟩
  open_ s := do
    let u ← upstream.open_ s.upstream
    let (ret, u) ← upstream.next u
    match ret with
    | none => pure { s with upstream := upstream.close u, current := s.to_ }
    | some input =>
      pure ⟨upstream.close u, (bounds input).1, (bounds input).2.1, (bounds input).2.2⟩
  next s :=
    if s.current < s.to_ then
      let current := Arith.plus s.current s.step
      pure (some (tuple (Arith.minus current s.step)), { s with current := current })
    else
      pure (none, s)
  close s := s

/-- The values that a range source returns from `current` on, if it comes to an end. -/
inductive RangeRun (to_ step : V) : V → List V → Prop
  | stop {current} : ¬ current < to_ → RangeRun to_ step current []
  | more {current vs} : current < to_ → RangeRun to_ step (Arith.plus current step) vs →
      RangeRun to_ step current (Arith.minus (Arith.plus current step) step :: vs)

/-- The values that the range source returns for the inputs `xs`: none without an input. -/
def RangeValues (bounds : τ → V × V × V) (xs : List τ) (vs : List V) : Prop :=
  match xs with
  | [] => vs = []
  | x :: _ => RangeRun (bounds x).2.1 (bounds x).2.2 (bounds x).1 vs

/-- A range source replays the range of the first tuple of its input. -/
def rangeReplay (hirrefl : ∀ v : V, ¬ v < v) {u : Iter τ} {xs : List τ} (R : Replay u xs)
    {bounds : τ → V × V × V} {vs : List V} (hvs : RangeValues bounds xs vs) (tuple : V → ρ) :
    Replay (rangeSourceOperator bounds tuple u) (vs.map tuple) where
  Idle s := R.Idle s.upstream
  Busy s ys := R.Idle s.upstream ∧ ∃ vs', RangeRun s.to_ s.step s.current vs' ∧ ys = vs'.map tuple
  fresh := R.fresh
  opens := by
    intro s h
    obtain ⟨s₁, hopen, hs₁⟩ := R.opens h
    obtain ⟨s₂, hnext, hs₂⟩ := R.next hs₁
    cases xs with
    | nil =>
      subst hvs
      exact ⟨_, hopen.bind (hnext.bind (.pure _)), R.close hs₂, [], .stop (hirrefl _), rfl⟩
    | cons x xs => exact ⟨_, hopen.bind (hnext.bind (.pure _)), R.close hs₂, vs, hvs, rfl⟩
  next_nil := by
    rintro s ⟨hidle, vs', hrun, hnil⟩
    obtain rfl : vs' = [] := List.map_eq_nil_iff.mp hnil.symm
    cases hrun with
    | stop hge =>
      refine ⟨s, ?_, hidle, [], .stop hge, rfl⟩
      simpa only [rangeSourceOperator, if_neg hge] using Returns.pure _
  next_cons := by
    rintro s y ys ⟨hidle, vs', hrun, hcons⟩
    obtain ⟨v, vs', rfl, rfl, rfl⟩ := List.map_eq_cons_iff.mp hcons.symm
    cases hrun with
    | more hlt hrun =>
      refine ⟨{ s with current := Arith.plus s.current s.step }, ?_, hidle, vs', hrun, rfl⟩
      simpa only [rangeSourceOperator, if_pos hlt] using Returns.pure _
  close h := h.1

end Range

/-! ### Ranges of `long`s -/

variable (from_ to_ step : ℤ)

/-- The number of values in a range with a positive step. -/
def rangeCount : ℕ := ((to_ - from_ + step - 1) / step).toNat

/-- The values of a range: `from_`, `from_ + step`, … below `to_`. -/
def rangeValues : List ℤ :=
  if 0 < step then (List.range (rangeCount from_ to_ step)).map fun i : ℕ => from_ + i * step
  else []

/-- The range comes to an end, and no addition on the way overflows a `long`. -/
def RangeEnds : Prop :=
  to_ ≤ from_ ∨ 0 < step ∧ -2 ^ 63 ≤ from_ ∧ from_ + rangeCount from_ to_ step * step < 2 ^ 63

theorem wrap64_eq {n : ℤ} (hlo : -2 ^ 63 ≤ n) (hhi : n < 2 ^ 63) : wrap64 n = n :=
  Int.bmod_eq_of_le (by norm_num; omega) (by norm_num; omega)

theorem rangeRun_of_count {to_ step : ℤ} (hstep : 0 < step) (k : ℕ) (current : ℤ)
    (hlt : ∀ i : ℕ, i < k → current + i * step < to_) (hge : to_ ≤ current + k * step)
    (hlo : -2 ^ 63 ≤ current) (hhi : current + k * step < 2 ^ 63) :
    RangeRun to_ step current ((List.range k).map fun i : ℕ => current + i * step) := by
  induction k generalizing current with
  | zero => exact .stop (by simpa using hge)
  | succ k ih =>
    have hcur : current < to_ := by simpa using hlt 0 (by omega)
    have hk : (0 : ℤ) ≤ k * step := by positivity
    have hmul : ((k + 1 : ℕ) : ℤ) * step = k * step + step := by push_cast; ring
    have hadd : Arith.plus current step = current + step := wrap64_eq (by omega) (by omega)
    have hsub : Arith.minus (Arith.plus current step) step = current := by
      rw [hadd]
      show wrap64 (current + step - step) = current
      rw [add_sub_cancel_right]
      exact wrap64_eq hlo (by omega)
    have hrest := ih (current + step) (fun i hi => ?_) (by omega) (by omega) (by omega)
    · rw [← hadd] at hrest
      have hrun := RangeRun.more hcur hrest
      rw [hsub, hadd] at hrun
      rw [List.range_succ_eq_map, List.map_cons, List.map_map]
      convert hrun using 2
      · simp
      · refine List.map_congr_left fun i _ => ?_
        simp only [Function.comp_apply, Nat.succ_eq_add_one]
        push_cast
        ring
    · have := hlt (i + 1) (by omega)
      push_cast at this
      linarith

section

variable {from_ to_ step : ℤ} (hstep : 0 < step)

include hstep

theorem rangeCount_of_le (hle : to_ ≤ from_) : rangeCount from_ to_ step = 0 := by
  have hlt : (to_ - from_ + step - 1) / step < 1 := Int.ediv_lt_of_lt_mul hstep (by omega)
  rw [rangeCount]
  omega

/-- The number of values is the number of steps, rounded up. -/
theorem rangeCount_bounds (hle : from_ ≤ to_) : to_ - from_ ≤ rangeCount from_ to_ step * step ∧
      rangeCount from_ to_ step * step < to_ - from_ + step := by
  have hdiv := Int.mul_ediv_add_emod (to_ - from_ + step - 1) step
  have hmod := Int.emod_nonneg (to_ - from_ + step - 1) hstep.ne'
  have hmod' := Int.emod_lt_of_pos (to_ - from_ + step - 1) hstep
  have hcount : (rangeCount from_ to_ step : ℤ) = (to_ - from_ + step - 1) / step :=
    Int.toNat_of_nonneg (Int.ediv_nonneg (by omega) hstep.le)
  rw [← hcount, mul_comm] at hdiv
  omega

end

/-- A range that ends returns its values. -/
theorem RangeEnds.run {from_ to_ step : ℤ} (h : RangeEnds from_ to_ step) :
    RangeRun to_ step from_ (rangeValues from_ to_ step) := by
  rw [rangeValues]
  split
  · rename_i hstep
    by_cases hle : to_ ≤ from_
    · rw [rangeCount_of_le hstep hle]
      exact .stop (by omega)
    · obtain ⟨-, hlo, hhi⟩ := h.resolve_left hle
      obtain ⟨hreaches, hbelow⟩ := rangeCount_bounds hstep (not_le.mp hle).le
      refine rangeRun_of_count hstep _ _ (fun i hi => ?_) (by omega) hlo hhi
      have hmul : ((i : ℤ) + 1) * step ≤ rangeCount from_ to_ step * step :=
        mul_le_mul_of_nonneg_right (by exact_mod_cast hi) hstep.le
      linarith
  · rcases h with h | ⟨hpos, -⟩
    · exact .stop (by omega)
    · omega

/-! ### Zip -/

/-- `ZipOperator` over its pack of upstreams: all of them are advanced, and the result exists if all
    of them returned a tuple — in particular always, for the empty pack. -/
def zipOperator {n : ℕ} (upstreams : Fin n → Iter τ) (tupleCat : (Fin n → τ) → ρ) : Iter ρ where
  State := ∀ i, (upstreams i).State
  fresh i := (upstreams i).fresh
  open_ s := seqFin fun i => (upstreams i).open_ (s i)
  next s := seqFin (fun i => (upstreams i).next (s i)) >>= fun ret =>
    pure (if h : ∀ i, (ret i).1.isSome then some (tupleCat fun i => (ret i).1.get (h i)) else none,
      fun i => (ret i).2)
  close s i := (upstreams i).close (s i)

/-- The first `k` rows of the inputs, as long as no input is at its end. -/
def zipTake {n : ℕ} : ℕ → (Fin n → List τ) → List (Fin n → τ)
  | 0, _ => []
  | k + 1, xss =>
    if h : ∀ i, (xss i).head?.isSome then (fun i => (xss i).head?.get (h i)) :: zipTake k fun i => (xss i).tail
    else []

/-- The rows of a zip: as many as the shortest of the inputs has. -/
def zipRows {n : ℕ} (xss : Fin (n + 1) → List τ) : List (Fin (n + 1) → τ) := zipTake (xss 0).length xss

section Zip

variable {n : ℕ} {xss : Fin (n + 1) → List τ}

theorem zipRows_of_some (h : ∀ i, (xss i).head?.isSome) :
    zipRows xss = (fun i => (xss i).head?.get (h i)) :: zipRows fun i => (xss i).tail := by
  have hpos : (xss 0).length = (xss 0).tail.length + 1 := by
    have h0 := h 0
    cases hx : xss 0 with
    | nil => simp [hx] at h0
    | cons x xs => rfl
  rw [zipRows, hpos, zipTake, dif_pos h]
  rfl

theorem zipRows_of_none (h : ¬ ∀ i, (xss i).head?.isSome) : zipRows xss = [] := by
  rw [zipRows]
  cases (xss 0).length with
  | zero => rfl
  | succ k => rw [zipTake, dif_neg h]

/-- Advancing all inputs drops the first row; once an input is at its end, there are none. -/
theorem zipRows_tail : zipRows (fun i => (xss i).tail) = (zipRows xss).tail := by
  by_cases hall : ∀ i, (xss i).head?.isSome
  · rw [zipRows_of_some hall, List.tail_cons]
  · rw [zipRows_of_none hall, zipRows_of_none, List.tail_nil]
    refine fun htail => hall fun i => ?_
    have hi := htail i
    cases hx : xss i with
    | nil => simp [hx] at hi
    | cons x xs => rfl

theorem map_zipTake {n : ℕ} (k : ℕ) (xss : Fin n → List τ) (i : Fin n) :
    ((zipTake k xss).map fun row => row i) = (xss i).take (zipTake k xss).length := by
  induction k generalizing xss with
  | zero => simp [zipTake]
  | succ k ih =>
    rw [zipTake]
    split
    · rename_i hall
      obtain ⟨x, hx⟩ := isSome_iff_exists.mp (hall i)
      obtain ⟨xs, hxs⟩ : ∃ xs, xss i = x :: xs := List.head?_eq_some_iff.mp hx
      have htail := ih fun i => (xss i).tail
      simp only [List.map_cons, List.length_cons, htail]
      simp [hxs]
    · simp

theorem length_zipTake {n : ℕ} (k : ℕ) (xss : Fin n → List τ) :
    (zipTake k xss).length = k ∨ ∃ i, (zipTake k xss).length = (xss i).length := by
  induction k generalizing xss with
  | zero => exact .inl rfl
  | succ k ih =>
    rw [zipTake]
    split
    · rename_i hall
      rcases ih fun i => (xss i).tail with hk | ⟨i, hi⟩
      · exact .inl (by simp [hk])
      · obtain ⟨x, hx⟩ := isSome_iff_exists.mp (hall i)
        obtain ⟨xs, hxs⟩ : ∃ xs, xss i = x :: xs := List.head?_eq_some_iff.mp hx
        exact .inr ⟨i, by simp [hi, hxs]⟩
    · rename_i hall
      obtain ⟨i, hi⟩ := not_forall.mp hall
      refine .inr ⟨i, ?_⟩
      have hnil : xss i = [] := by simpa using hi
      rw [hnil]
      rfl

/-- Each column of a zip is the beginning of its input. -/
theorem map_zipRows (xss : Fin (n + 1) → List τ) (i : Fin (n + 1)) :
    ((zipRows xss).map fun row => row i) = (xss i).take (zipRows xss).length :=
  map_zipTake _ xss i

/-- A zip has as many rows as its shortest input. -/
theorem exists_length_zipRows (xss : Fin (n + 1) → List τ) : ∃ i, (zipRows xss).length = (xss i).length := by
  rcases length_zipTake (xss 0).length xss with h | h
  · exact ⟨0, h⟩
  · exact h

theorem length_zipRows_le (xss : Fin (n + 1) → List τ) (i : Fin (n + 1)) : (zipRows xss).length ≤ (xss i).length := by
  have h := congrArg List.length (map_zipRows xss i)
  rw [List.length_map, List.length_take] at h
  omega

variable {us : Fin (n + 1) → Iter τ}

/-- One `next` of a zip advances every input. -/
theorem zip_next (R : ∀ i, Replay (us i) (xss i)) (tupleCat : (Fin (n + 1) → τ) → ρ)
    {s : ∀ i, (us i).State} {yss : Fin (n + 1) → List τ} (h : ∀ i, (R i).Busy (s i) (yss i)) :
    ∃ s' : ∀ i, (us i).State, Returns ((zipOperator us tupleCat).next s) (((zipRows yss).map tupleCat).head?, s') ∧
      ∀ i, (R i).Busy (s' i) (yss i).tail := by
  choose s' hnext hs' using fun i => (R i).next (h i)
  refine ⟨s', ?_, hs'⟩
  have hrow : ((zipRows yss).map tupleCat).head? =
      if h : ∀ i, (yss i).head?.isSome then some (tupleCat fun i => (yss i).head?.get (h i))
      else none := by
    by_cases hall : ∀ i, (yss i).head?.isSome
    · rw [zipRows_of_some hall, dif_pos hall]; rfl
    · rw [zipRows_of_none hall, dif_neg hall]; rfl
  rw [hrow]
  exact (Returns.seqFin hnext).bind (.pure _)

/-- A zip of at least one input replays the rows of its inputs. -/
def zipReplay (R : ∀ i, Replay (us i) (xss i)) (tupleCat : (Fin (n + 1) → τ) → ρ) :
    Replay (zipOperator us tupleCat) ((zipRows xss).map tupleCat) where
  toServing := .ofNext (fun s zs => ∃ yss, (∀ i, (R i).Busy (s i) (yss i)) ∧
      zs = (zipRows yss).map tupleCat) (by
    rintro s _ ⟨yss, hyss, rfl⟩
    obtain ⟨s', hnext, hs'⟩ := zip_next R tupleCat hyss
    exact ⟨s', hnext, _, hs', by rw [zipRows_tail, List.map_tail]⟩)
  Idle s := ∀ i, (R i).Idle (s i)
  fresh i := (R i).fresh
  opens h := by
    choose s' hopen hs' using fun i => (R i).opens (h i)
    exact ⟨s', Returns.seqFin hopen, xss, hs', rfl⟩
  close := by
    rintro s zs ⟨yss, hyss, -⟩
    exact fun i => (R i).close (hyss i)

/-- The zip of no inputs never comes to an end: each `next` returns a tuple. -/
theorem zip_zero_next (us : Fin 0 → Iter τ) (tupleCat : (Fin 0 → τ) → ρ) (s : ∀ i, (us i).State) :
    Returns ((zipOperator us tupleCat).next s) (some (tupleCat Fin.elim0), s) := by
  have hret := Returns.seqFin (m := fun i => (us i).next (s i)) (a := fun i => i.elim0)
    fun i => i.elim0
  refine hret.bind (.pure_of_eq (Prod.ext ?_ (funext fun i => i.elim0)))
  have hall : ∀ i : Fin 0, (i.elim0 : Option τ × (us i).State).1.isSome := fun i => i.elim0
  exact congrArg (fun t => some (tupleCat t)) (funext fun i => i.elim0)

theorem zip_zero_endless (us : Fin 0 → Iter τ) (tupleCat : (Fin 0 → τ) → ρ) :
    Endless (zipOperator us tupleCat) fun _ => True where
  next := by
    intro s n r s' _ h
    simp only [zipOperator, bind_run, bind_eq_some_iff] at h
    obtain ⟨ret, -, hret⟩ := h
    rw [dif_pos fun i : Fin 0 => i.elim0, pure_run, some_inj] at hret
    exact ⟨(Prod.mk.inj hret).1 ▸ rfl, trivial⟩

end Zip

/-! ### Cartesian -/

/-- The members of `CartesianOperator`. -/
structure CartesianState (σ₁ σ₂ τ₂ : Type) where
  upstream1 : σ₁
  upstream2 : σ₂
  currentTuple : Option τ₂

section Cartesian

variable (buildResult : τ₁ → τ₂ → ρ) (u₁ : Iter τ₁) (u₂ : Iter τ₂)

/-- The second half of `CartesianOperator::next`, up to its recursive call (`inl`): the left input is
    closed and opened again for each tuple of the right input. -/
def cartesianAdvance (up1 : u₁.State) (up2 : u₂.State) : Comp (CartesianState u₁.State u₂.State τ₂ ⊕
      (Option ρ × CartesianState u₁.State u₂.State τ₂)) :=
  u₂.next up2 >>= fun
    | (none, up2) => pure (.inr (none, ⟨up1, up2, none⟩))
    | (some b, up2) => u₁.open_ (u₁.close up1) >>= fun up1 => pure (.inl ⟨up1, up2, some b⟩)

/-- One call of `CartesianOperator::next`, up to its recursive call. -/
def cartesianRound (s : CartesianState u₁.State u₂.State τ₂) : Comp (CartesianState u₁.State u₂.State τ₂ ⊕
      (Option ρ × CartesianState u₁.State u₂.State τ₂)) :=
  u₁.next s.upstream1 >>= fun (t1, up1) =>
    match t1, s.currentTuple with
    | some a, some b => pure (.inr (some (buildResult a b), { s with upstream1 := up1 }))
    | _, _ => cartesianAdvance u₁ u₂ up1 s.upstream2

/-- `CartesianOperator`. -/
def cartesianOperator : Iter ρ where
  State := CartesianState u₁.State u₂.State τ₂
  fresh := ⟨u₁.fresh, u₂.fresh, none⟩
  open_ s := do
    let up1 ← u₁.open_ s.upstream1
    let up2 ← u₂.open_ s.upstream2
    let (currentTuple, up2) ← u₂.next up2
    pure ⟨up1, up2, currentTuple⟩
  next := iterate (cartesianRound buildResult u₁ u₂)
  close s := { s with upstream1 := u₁.close s.upstream1, upstream2 := u₂.close s.upstream2 }

/-- The product, right-major: for each right tuple in order, every left tuple in order. -/
def cartesianRows (ls : List τ₁) (rs : List τ₂) : List ρ := rs.flatMap fun b => ls.map fun a => buildResult a b

variable {u₁ u₂} {ls : List τ₁} {rs : List τ₂}

/-- What an open Cartesian product still returns: `as` of the left input for the current right
    tuple, then everything for the right tuples `bs`. -/
def cartesianRest (ls : List τ₁) (currentTuple : Option τ₂) (as : List τ₁) (bs : List τ₂) : List ρ :=
  match currentTuple with
  | none => []
  | some b => (as.map fun a => buildResult a b) ++ cartesianRows buildResult ls bs

theorem cartesianRound_emit (u₂ : Iter τ₂) (R1 : Replay u₁ ls) {s : CartesianState u₁.State u₂.State τ₂}
    {a : τ₁} {as : List τ₁} {b : τ₂} (h1 : R1.Busy s.upstream1 (a :: as)) (hb : s.currentTuple = some b) :
    ∃ up1, Returns (cartesianRound buildResult u₁ u₂ s)
        (.inr (some (buildResult a b), { s with upstream1 := up1 })) ∧ R1.Busy up1 as := by
  obtain ⟨up1, hnext, hup1⟩ := R1.next_cons h1
  refine ⟨up1, hnext.bind ?_, hup1⟩
  simpa only [hb] using Returns.pure _

/-- A round that has no result for the current right tuple goes on to the next one. -/
theorem cartesianRound_advance (R1 : Replay u₁ ls) {s : CartesianState u₁.State u₂.State τ₂}
    {as : List τ₁} (h1 : R1.Busy s.upstream1 as) (hno : as = [] ∨ s.currentTuple = none) :
    ∃ up1, R1.Busy up1 as.tail ∧ ∀ {r}, Returns (cartesianAdvance u₁ u₂ up1 s.upstream2) r →
      Returns (cartesianRound buildResult u₁ u₂ s) r := by
  obtain ⟨up1, hnext, hup1⟩ := R1.next h1
  refine ⟨up1, hup1, fun hr => hnext.bind ?_⟩
  cases as with
  | nil => exact hr
  | cons a as =>
    have hnone := hno.resolve_left (List.cons_ne_nil a as)
    show Returns (match some a, s.currentTuple with | some a, some b => _ | _, _ => _) _
    rw [hnone]
    exact hr

/-- What an open product has left; without a current right tuple there is none to come. -/
def CartesianAt (R1 : Replay u₁ ls) (R2 : Replay u₂ rs) (s : CartesianState u₁.State u₂.State τ₂)
    (rows : List ρ) : Prop :=
  ∃ as bs, R1.Busy s.upstream1 as ∧ R2.Busy s.upstream2 bs ∧ (s.currentTuple = none → bs = []) ∧
    rows = cartesianRest buildResult ls s.currentTuple as bs

/-- One `next` of a Cartesian product.  The recursion is on the right tuples that are left: a round
    that recurses has taken one of them. -/
theorem cartesian_next (R1 : Replay u₁ ls) (R2 : Replay u₂ rs)
    {s : CartesianState u₁.State u₂.State τ₂} {as : List τ₁} {bs : List τ₂}
    (h1 : R1.Busy s.upstream1 as) (h2 : R2.Busy s.upstream2 bs) (hbs : s.currentTuple = none → bs = []) :
    ∃ s' : CartesianState u₁.State u₂.State τ₂, Iterates (cartesianRound buildResult u₁ u₂) s
        ((cartesianRest buildResult ls s.currentTuple as bs).head?, s') ∧
      CartesianAt buildResult R1 R2 s' (cartesianRest buildResult ls s.currentTuple as bs).tail := by
  by_cases hno : as = [] ∨ s.currentTuple = none
  · obtain ⟨up1, hup1, hround⟩ := cartesianRound_advance buildResult R1 h1 hno
    have hrest : cartesianRest buildResult ls s.currentTuple as bs = cartesianRows buildResult ls bs := by
      rcases hno with rfl | hnone
      · cases hb : s.currentTuple with
        | none => rw [hbs hb]; rfl
        | some b => rfl
      · rw [hnone, hbs hnone]; rfl
    rw [hrest]
    cases bs with
    | nil =>
      obtain ⟨up2, hnext2, hup2⟩ := R2.next_nil h2
      exact ⟨⟨up1, up2, none⟩, .done (hround (hnext2.bind (.pure _))), as.tail, [], hup1, hup2, fun _ => rfl, rfl⟩
    | cons b bs =>
      obtain ⟨up2, hnext2, hup2⟩ := R2.next_cons h2
      obtain ⟨up1', hopen, hup1'⟩ := R1.opens (R1.close hup1)
      obtain ⟨s', hit, hs'⟩ := cartesian_next R1 R2 (s := ⟨up1', up2, some b⟩) hup1' hup2 nofun
      exact ⟨s', .step (hround (hnext2.bind (hopen.bind (.pure _)))) hit, hs'⟩
  · obtain ⟨has, hcur⟩ := not_or.mp hno
    obtain ⟨a, as, rfl⟩ := List.exists_cons_of_ne_nil has
    obtain ⟨b, hb⟩ := ne_none_iff_exists'.mp hcur
    obtain ⟨up1, hround, hup1⟩ := cartesianRound_emit buildResult u₂ R1 h1 hb
    rw [hb]
    exact ⟨{ s with upstream1 := up1 }, .done hround, as, bs, hup1, h2, hbs, by simp only [hb]; rfl⟩
termination_by bs.length

/-- A Cartesian product replays the right-major product of its inputs. -/
def cartesianReplay (R₁ : Replay u₁ ls) (R₂ : Replay u₂ rs) :
    Replay (cartesianOperator buildResult u₁ u₂) (cartesianRows buildResult ls rs) where
  toServing := .ofNext (CartesianAt buildResult R₁ R₂) (by
    rintro s _ ⟨as, bs, h₁, h₂, hbs, rfl⟩
    obtain ⟨s', hit, hs'⟩ := cartesian_next buildResult R₁ R₂ h₁ h₂ hbs
    exact ⟨s', hit.returns, hs'⟩)
  Idle s := R₁.Idle s.upstream1 ∧ R₂.Idle s.upstream2
  fresh := ⟨R₁.fresh, R₂.fresh⟩
  opens := by
    rintro s ⟨h₁, h₂⟩
    obtain ⟨up1, hopen₁, hup1⟩ := R₁.opens h₁
    obtain ⟨up2, hopen₂, hup2⟩ := R₂.opens h₂
    obtain ⟨up2', hnext, hup2'⟩ := R₂.next hup2
    refine ⟨_, hopen₁.bind (hopen₂.bind (hnext.bind (.pure _))), ls, rs.tail, hup1, hup2', ?_, ?_⟩
    · cases rs <;> simp
    · cases rs <;> rfl
  close := by
    rintro s zs ⟨as, bs, h₁, h₂, -, -⟩
    exact ⟨R₁.close h₁, R₂.close h₂⟩

/-- With a right input that does not end, a product does not end. -/
theorem cartesian_endless_right {I : u₂.State → Prop} (h : Endless u₂ I) :
    Endless (cartesianOperator buildResult u₁ u₂)
      fun s => s.currentTuple.isSome ∧ I s.upstream2 where
  next := by
    intro s n r s' hs hnext
    refine iterate_invariant (P := fun s : CartesianState u₁.State u₂.State τ₂ => s.currentTuple.isSome ∧ I s.upstream2)
      (Q := fun out : Option ρ × CartesianState u₁.State u₂.State τ₂ =>
        out.1.isSome ∧ out.2.currentTuple.isSome ∧ I out.2.upstream2) (fun s out hs hround => ?_) hs hnext
    obtain ⟨b, hb⟩ := isSome_iff_exists.mp hs.1
    rw [cartesianRound, bind_run, bind_eq_some_iff] at hround
    obtain ⟨⟨t1, up1⟩, -, hround⟩ := hround
    cases t1 with
    | some a =>
      simp only [hb, pure_run, some_inj] at hround
      subst hround
      exact ⟨rfl, rfl, hs.2⟩
    | none =>
      simp only [cartesianAdvance, bind_run, bind_eq_some_iff] at hround
      obtain ⟨⟨c, up2⟩, hnext2, hround⟩ := hround
      obtain ⟨hc, hI⟩ := h.next hs.2 hnext2
      obtain ⟨b', rfl⟩ := isSome_iff_exists.mp hc
      simp only [bind_run, bind_eq_some_iff, pure_run, some_inj] at hround
      obtain ⟨up1', -, rfl⟩ := hround
      exact ⟨rfl, hI⟩

/-- With a left input that does not end, a product with a right tuple does not end. -/
theorem cartesian_endless_left {I : u₁.State → Prop} (h : Endless u₁ I) :
    Endless (cartesianOperator buildResult u₁ u₂)
      fun s => s.currentTuple.isSome ∧ I s.upstream1 where
  next := by
    intro s n r s' hs hnext
    obtain ⟨b, hb⟩ := isSome_iff_exists.mp hs.1
    cases n with
    | zero => exact absurd hnext (by simp [cartesianOperator, iterate, loop, fail])
    | succ n =>
      simp only [cartesianOperator, iterate, loop, bind_run, bind_eq_some_iff, cartesianRound] at hnext
      obtain ⟨round, ⟨⟨t1, up1⟩, hnext1, hround⟩, hrest⟩ := hnext
      obtain ⟨ht1, hI⟩ := h.next hs.2 hnext1
      obtain ⟨a, rfl⟩ := isSome_iff_exists.mp ht1
      simp only [hb, pure_run, some_inj] at hround
      subst hround
      obtain ⟨rfl, rfl⟩ := Prod.mk.inj (some.inj hrest)
      exact ⟨rfl, rfl, hI⟩

end Cartesian

end Jitq.Operators

import Mathlib

namespace Jitq.Runtime

open List

/-!
# Exchange groups — who sends to whom in one level of an exchange

An exchange runs in one or in two levels.  In each level the workers are divided into
groups, and a worker sends every partition of its data to one member of its own group:

* `floorSqrt` — the number of groups, `static_cast<size_t>(sqrt(num_workers))`, with the
  rounding of the conversion to `double` and of `sqrt` itself;
* `computeGroupMembers` / `computeGroupSize` — the group of a worker in a level
  (`ExchangeS3Operator::ComputeGroupMembers`);
* `exchangeTarget` — where one level sends a tuple: the partition operator takes the hash
  of the key modulo the group size, and the exchange delivers to that member;
* `route` — the composition of the levels that `TwoLevelExchange` puts in place of an
  exchange.

Two levels send equal keys to one worker exactly if the number of groups divides the
number of workers (`coLocates_iff`).
-/

/-! ### The number of groups -/

/-- The integer nearest to `n` with at most 53 significant bits, ties to even: the value of
    `static_cast<double>(n)`. -/
def toDouble (n : ℕ) : ℕ :=
  let k := Nat.log2 n - 52
  let q := n / 2 ^ k
  let r := n % 2 ^ k
  if 2 * r < 2 ^ k ∨ (2 * r = 2 ^ k ∧ q % 2 = 0) then q * 2 ^ k else (q + 1) * 2 ^ k

/-- The integer nearest to the square root of `y`.  The midpoint `s + 1/2` is never the
    root of an integer, so there is no tie to break. -/
def roundSqrt (y : ℕ) : ℕ := if Nat.sqrt y * Nat.sqrt y + Nat.sqrt y < y then Nat.sqrt y + 1 else Nat.sqrt y

/-- `static_cast<size_t>(sqrt(n))`.  The square root of the double `x` is rounded to 53
    bits, that is to a multiple of `2 ^ -m`, and then truncated. -/
def floorSqrt (n : ℕ) : ℕ :=
  let x := toDouble n
  let m := 52 - Nat.log2 (Nat.sqrt x)
  roundSqrt (x * 4 ^ m) / 2 ^ m

theorem toDouble_of_lt {n : ℕ} (hn : n < 2 ^ 53) : toDouble n = n := by
  have hk : Nat.log2 n - 52 = 0 := by
    rcases Nat.eq_zero_or_pos n with rfl | hpos
    · simp
    · have := (Nat.log2_lt (by omega)).2 hn
      omega
  simp [toDouble, hk, Nat.mod_one]

/-- The conversion to `double` changes a number by less than a factor of two. -/
theorem toDouble_bounds (n : ℕ) : toDouble n ≤ 2 * n ∧ n ≤ 2 * toDouble n := by
  rcases Nat.eq_zero_or_pos n with rfl | hpos
  · rw [toDouble_of_lt (by norm_num)]; simp
  simp only [toDouble]
  generalize hk : Nat.log2 n - 52 = k
  have hq : 1 ≤ n / 2 ^ k := by
    rw [Nat.le_div_iff_mul_le (by positivity), one_mul]
    calc 2 ^ k ≤ 2 ^ Nat.log2 n := Nat.pow_le_pow_right (by norm_num) (by omega)
      _ ≤ n := Nat.log2_self_le (by omega)
  have hqk : 2 ^ k ≤ n / 2 ^ k * 2 ^ k := Nat.le_mul_of_pos_left _ hq
  have hdiv : n / 2 ^ k * 2 ^ k + n % 2 ^ k = n := Nat.div_add_mod' n (2 ^ k)
  have hmod : n % 2 ^ k < 2 ^ k := Nat.mod_lt _ (by positivity)
  split
  · constructor <;> omega
  · rw [Nat.add_mul, one_mul]
    constructor <;> omega

theorem sqrt_le_roundSqrt (y : ℕ) : Nat.sqrt y ≤ roundSqrt y := by
  unfold roundSqrt
  split <;> omega

/-- Rounding does not pass an integer that is at least the root. -/
theorem roundSqrt_le_of_le_sq {y b : ℕ} (hy : y ≤ b * b) : roundSqrt y ≤ b := by
  have hs : Nat.sqrt y ≤ b := by
    rw [← Nat.sqrt_eq b]
    exact Nat.sqrt_le_sqrt hy
  unfold roundSqrt
  split
  · rename_i hup
    rcases Nat.lt_or_eq_of_le hs with hlt | heq
    · omega
    · rw [heq] at hup; omega
  · exact hs

theorem four_pow_eq (m : ℕ) : 4 ^ m = 2 ^ m * 2 ^ m := by
  rw [← mul_pow]; norm_num

theorem one_le_floorSqrt {n : ℕ} (hn : 1 ≤ n) : 1 ≤ floorSqrt n := by
  simp only [floorSqrt]
  generalize 52 - Nat.log2 (Nat.sqrt (toDouble n)) = m
  have hx := (toDouble_bounds n).2
  rw [Nat.le_div_iff_mul_le (by positivity), one_mul]
  refine le_trans ?_ (sqrt_le_roundSqrt _)
  rw [Nat.le_sqrt, ← four_pow_eq]
  exact Nat.le_mul_of_pos_left _ (by omega)

/-- The truncated root is at most any integer whose square bounds the argument. -/
theorem floorSqrt_le_of_le_sq {n b : ℕ} (h : toDouble n ≤ b * b) : floorSqrt n ≤ b := by
  simp only [floorSqrt]
  generalize 52 - Nat.log2 (Nat.sqrt (toDouble n)) = m
  apply Nat.div_le_of_le_mul
  apply roundSqrt_le_of_le_sq
  calc toDouble n * 4 ^ m ≤ b * b * 4 ^ m := Nat.mul_le_mul_right _ h
    _ = 2 ^ m * b * (2 ^ m * b) := by rw [four_pow_eq]; ring

theorem floorSqrt_le {n : ℕ} (hn : 1 ≤ n) : floorSqrt n ≤ n := by
  apply floorSqrt_le_of_le_sq
  rcases Nat.lt_or_ge n 2 with h2 | h2
  · rw [toDouble_of_lt (by omega)]
    nlinarith
  · have := (toDouble_bounds n).1
    nlinarith

/-- Below `2 ^ 52` workers the detour over `double` is exact: the root of an integer just
    below a square is further from it than half a unit in the last place. -/
theorem floorSqrt_eq_sqrt {n : ℕ} (hn : n < 2 ^ 52) : floorSqrt n = Nat.sqrt n := by
  rcases Nat.eq_zero_or_pos n with rfl | hpos
  · decide +kernel
  have hx : toDouble n = n := toDouble_of_lt (by omega)
  simp only [floorSqrt, hx]
  set r := Nat.sqrt n with hr
  have hr1 : 1 ≤ r := by rw [hr, Nat.le_sqrt]; omega
  have hr26 : r < 2 ^ 26 := by
    rw [hr, Nat.sqrt_lt]
    calc n < 2 ^ 52 := hn
      _ = 2 ^ 26 * 2 ^ 26 := by norm_num
  have he : Nat.log2 r < 26 := (Nat.log2_lt (by omega)).2 hr26
  have hlog : r + 1 ≤ 2 ^ (Nat.log2 r + 1) := Nat.lt_log2_self
  generalize hm : 52 - Nat.log2 r = m
  have hr2 : 2 * (r + 1) ≤ 2 ^ m := by
    calc 2 * (r + 1) ≤ 2 * 2 ^ (Nat.log2 r + 1) := Nat.mul_le_mul_left _ hlog
      _ = 2 ^ (Nat.log2 r + 2) := by rw [pow_succ 2 (Nat.log2 r + 1)]; ring
      _ ≤ 2 ^ m := Nat.pow_le_pow_right (by norm_num) (by omega)
  have hlow : r * r ≤ n := Nat.sqrt_le n
  have hup : n + 1 ≤ (r + 1) * (r + 1) := Nat.lt_succ_sqrt n
  apply le_antisymm
  · -- `(r + 1) * 2 ^ m - 1` still bounds the root of `n * 4 ^ m`.
    have hbound : roundSqrt (n * 4 ^ m) ≤ (r + 1) * 2 ^ m - 1 := by
      apply roundSqrt_le_of_le_sq
      obtain ⟨c, hc⟩ : ∃ c, (r + 1) * 2 ^ m = c + 1 :=
        ⟨(r + 1) * 2 ^ m - 1, by have : 1 ≤ (r + 1) * 2 ^ m := Nat.mul_pos (by omega) (by positivity); omega⟩
      rw [hc, Nat.add_sub_cancel, four_pow_eq]
      nlinarith [Nat.mul_le_mul_right (2 ^ m * 2 ^ m) hup, Nat.mul_le_mul_right (2 ^ m) hr2]
    rw [← Nat.lt_add_one_iff, Nat.div_lt_iff_lt_mul (by positivity)]
    have : 1 ≤ (r + 1) * 2 ^ m := Nat.mul_pos (by omega) (by positivity)
    omega
  · rw [Nat.le_div_iff_mul_le (by positivity)]
    refine le_trans ?_ (sqrt_le_roundSqrt _)
    rw [Nat.le_sqrt, four_pow_eq]
    calc r * 2 ^ m * (r * 2 ^ m) = r * r * (2 ^ m * 2 ^ m) := by ring
      _ ≤ n * (2 ^ m * 2 ^ m) := Nat.mul_le_mul_right _ hlow

theorem floorSqrt_eq_sqrt_eight : 8 < 2 ^ 52 ∧ floorSqrt 8 = Nat.sqrt 8 :=
  ⟨by norm_num, floorSqrt_eq_sqrt (by norm_num)⟩

/-! ### Groups -/

variable (numLevels levelNum numWorkers workerId : ℕ)

/-- `ExchangeS3Operator::ComputeGroupMembers`.  The levels the source asserts away have no
    members. -/
def computeGroupMembers : List ℕ :=
  if numLevels = 1 then
    range numWorkers
  else if numLevels = 2 ∧ levelNum = 0 then
    let numGroups := floorSqrt numWorkers
    let groupId := workerId % numGroups
    (range numWorkers).filter (fun i => i % numGroups = groupId)
  else if numLevels = 2 ∧ levelNum = 1 then
    let numGroups := floorSqrt numWorkers
    let groupId := workerId / numGroups
    (range numWorkers).filter (fun i => i / numGroups = groupId)
  else
    []

/-- `ExchangeS3Operator::ComputeGroupSize`. -/
def computeGroupSize : ℕ :=
  (computeGroupMembers numLevels levelNum numWorkers workerId).length

/-- Two increasing lists with the same elements are equal. -/
theorem eq_of_sortedLT_of_mem_iff {l1 l2 : List ℕ} (h1 : l1.Pairwise (· < ·))
    (h2 : l2.Pairwise (· < ·)) (h : ∀ i, i ∈ l1 ↔ i ∈ l2) : l1 = l2 := by
  have hp : l1.Perm l2 := (perm_ext_iff_of_nodup (h1.imp ne_of_lt) (h2.imp ne_of_lt)).2 h
  exact hp.eq_of_pairwise (fun a b _ _ hab hba => absurd hab (lt_asymm hba)) h1 h2

/-- The workers with remainder `r` are `r`, `r + g`, `r + 2 * g`, … -/
theorem filter_mod_range (W : ℕ) {g r : ℕ} (hg : 1 ≤ g) (hr : r < g) : (range W).filter (fun i => i % g = r)
      = (range ((W + g - 1 - r) / g)).map (fun j => r + j * g) := by
  apply eq_of_sortedLT_of_mem_iff
  · exact List.Pairwise.filter _ pairwise_lt_range
  · rw [pairwise_map]
    refine pairwise_lt_range.imp (fun {a b} hab => ?_)
    have := Nat.mul_lt_mul_of_pos_right hab hg
    omega
  · intro i
    simp only [mem_filter, mem_range, decide_eq_true_eq, mem_map]
    constructor
    · rintro ⟨hi, hir⟩
      have hdiv := Nat.div_add_mod' i g
      refine ⟨i / g, ?_, by omega⟩
      rw [Nat.lt_iff_add_one_le, Nat.le_div_iff_mul_le hg, Nat.add_mul]
      omega
    · rintro ⟨j, hj, rfl⟩
      rw [Nat.lt_iff_add_one_le, Nat.le_div_iff_mul_le hg, Nat.add_mul] at hj
      refine ⟨by omega, ?_⟩
      rw [Nat.add_mul_mod_self_right, Nat.mod_eq_of_lt hr]

/-- The workers with quotient `q` are the `q`-th block of `g` workers, the last one cut off
    at the number of workers. -/
theorem filter_div_range (W q : ℕ) {g : ℕ} (hg : 1 ≤ g) : (range W).filter (fun i => i / g = q)
      = (range (min g (W - q * g))).map (fun j => q * g + j) := by
  apply eq_of_sortedLT_of_mem_iff
  · exact List.Pairwise.filter _ pairwise_lt_range
  · rw [pairwise_map]
    exact pairwise_lt_range.imp (fun {a b} hab => Nat.add_lt_add_left hab _)
  · intro i
    simp only [mem_filter, mem_range, decide_eq_true_eq, mem_map]
    constructor
    · rintro ⟨hi, rfl⟩
      have hdiv := Nat.div_add_mod' i g
      have hmod := Nat.mod_lt i hg
      exact ⟨i % g, by omega, hdiv⟩
    · rintro ⟨j, hj, rfl⟩
      refine ⟨by omega, ?_⟩
      rw [mul_comm, Nat.mul_add_div hg, Nat.div_eq_of_lt (by omega), Nat.add_zero]

/-- Group membership is symmetric: all members of a worker's group have the same group. -/
theorem computeGroupMembers_eq_of_mem {L l W w v : ℕ} (hv : v ∈ computeGroupMembers L l W w) :
    computeGroupMembers L l W v = computeGroupMembers L l W w := by
  unfold computeGroupMembers at hv ⊢
  split_ifs at hv ⊢ with h1 h2 h3
  · rfl
  · simp only [mem_filter, decide_eq_true_eq] at hv
    simp only [hv.2]
  · simp only [mem_filter, decide_eq_true_eq] at hv
    simp only [hv.2]
  · rfl

/-- The levels the operator supports. -/
def SupportedLevel (numLevels levelNum : ℕ) : Prop :=
  (numLevels = 1 ∧ levelNum = 0) ∨ (numLevels = 2 ∧ levelNum = 0) ∨ (numLevels = 2 ∧ levelNum = 1)

/-- Every worker is in its own group. -/
theorem self_mem_computeGroupMembers {L l W w : ℕ} (hl : SupportedLevel L l) (hw : w < W) :
    w ∈ computeGroupMembers L l W w := by
  rcases hl with ⟨rfl, rfl⟩ | ⟨rfl, rfl⟩ | ⟨rfl, rfl⟩ <;> simp [computeGroupMembers, hw]

/-- Every member of a group is an existing worker. -/
theorem lt_of_mem_computeGroupMembers {L l W w v : ℕ} (hv : v ∈ computeGroupMembers L l W w) : v < W := by
  unfold computeGroupMembers at hv
  split_ifs at hv with h1 h2 h3
  · exact mem_range.1 hv
  · exact mem_range.1 (mem_filter.1 hv).1
  · exact mem_range.1 (mem_filter.1 hv).1
  · exact absurd hv (not_mem_nil)

/-- No worker is in its group twice. -/
theorem nodup_computeGroupMembers (L l W w : ℕ) : (computeGroupMembers L l W w).Nodup := by
  unfold computeGroupMembers
  split_ifs
  · exact nodup_range
  · exact nodup_range.filter _
  · exact nodup_range.filter _
  · exact nodup_nil

/-! ### The route of a tuple -/

/-- A `DAGPartitionedExchange`: one level of an exchange. -/
structure PartitionedExchange where
  numLevels : ℕ
  levelNum : ℕ
deriving DecidableEq, Repr

/-- What `TwoLevelExchange::Run` puts in place of a `DAGExchange`. -/
def twoLevelExchange : List PartitionedExchange := [⟨2, 0⟩, ⟨2, 1⟩]

/-- One level seen by a tuple on `workerId`: the partition operator, whose fanout is the
    group size, computes `hash % fanout`, and the exchange delivers partition `p` to the
    member with index `p`. -/
def exchangeTarget (e : PartitionedExchange) (numWorkers : ℕ) (hash : UInt64) (workerId : ℕ) : Option ℕ :=
  let fanout := computeGroupSize e.numLevels e.levelNum numWorkers workerId
  (computeGroupMembers e.numLevels e.levelNum numWorkers workerId)[hash.toNat % fanout]?

/-- The worker a tuple reaches through a sequence of levels.  The hash of a level is the
    partition operator's hash with the seed of that level. -/
def route {K : Type} (hash : ℕ → K → UInt64) (numWorkers : ℕ) (key : K) : List PartitionedExchange → ℕ → Option ℕ
  | [], workerId => some workerId
  | e :: es, workerId =>
      (exchangeTarget e numWorkers (hash e.levelNum key) workerId).bind (route hash numWorkers key es)

section TwoLevels

variable {W : ℕ}

/-- Number of members of the level-0 group with remainder `r`. -/
def level0Size (W r : ℕ) : ℕ := (W + floorSqrt W - 1 - r) / floorSqrt W

/-- Number of members of the level-1 group with quotient `q`. -/
def level1Size (W q : ℕ) : ℕ := min (floorSqrt W) (W - q * floorSqrt W)

theorem level0Size_pos (hW : 1 ≤ W) {r : ℕ} (hr : r < floorSqrt W) (hrW : r < W) : 0 < level0Size W r := by
  rw [level0Size, Nat.div_pos_iff]
  omega

theorem level1Size_pos (hW : 1 ≤ W) {w : ℕ} (hw : w < W) : 0 < level1Size W (w / floorSqrt W) := by
  have hg := one_le_floorSqrt hW
  have hdiv := Nat.div_mul_le_self w (floorSqrt W)
  rw [level1Size]
  omega

theorem exchangeTarget_level0 (hW : 1 ≤ W) {s : ℕ} (hs : s < W) (h : UInt64) : exchangeTarget ⟨2, 0⟩ W h s
      = some (s % floorSqrt W
          + (h.toNat % level0Size W (s % floorSqrt W)) * floorSqrt W) := by
  have hg := one_le_floorSqrt hW
  have hr : s % floorSqrt W < floorSqrt W := Nat.mod_lt _ hg
  have hpos := level0Size_pos hW hr (lt_of_le_of_lt (Nat.mod_le _ _) hs)
  have hmem : computeGroupMembers 2 0 W s
      = (range (level0Size W (s % floorSqrt W))).map
          (fun j => s % floorSqrt W + j * floorSqrt W) := by
    exact filter_mod_range W hg hr
  simp [exchangeTarget, computeGroupSize, hmem, Nat.mod_lt _ hpos]

theorem exchangeTarget_level1 (hW : 1 ≤ W) {w : ℕ} (hw : w < W) (h : UInt64) : exchangeTarget ⟨2, 1⟩ W h w
      = some (w / floorSqrt W * floorSqrt W
          + h.toNat % level1Size W (w / floorSqrt W)) := by
  have hg := one_le_floorSqrt hW
  have hpos := level1Size_pos hW hw
  have hmem : computeGroupMembers 2 1 W w
      = (range (level1Size W (w / floorSqrt W))).map
          (fun j => w / floorSqrt W * floorSqrt W + j) := by
    exact filter_div_range W _ hg
  simp [exchangeTarget, computeGroupSize, hmem, Nat.mod_lt _ hpos]

/-- The level-1 group a tuple is sent to in level 0, as a function of the hash and of the
    worker it starts on. -/
def level1Group (W : ℕ) (h : UInt64) (s : ℕ) : ℕ := h.toNat % level0Size W (s % floorSqrt W)

/-- **The route in closed form.**  Level 0 moves the tuple to the level-1 group
    `level1Group W h₀ s` without changing the remainder, and level 1 replaces the remainder. -/
theorem route_twoLevelExchange (hW : 1 ≤ W) {s : ℕ} (hs : s < W) {K : Type} (hash : ℕ → K → UInt64) (key : K) :
    route hash W key twoLevelExchange s
      = some (level1Group W (hash 0 key) s * floorSqrt W
          + (hash 1 key).toNat % level1Size W (level1Group W (hash 0 key) s)) ∧
    level1Group W (hash 0 key) s * floorSqrt W < W := by
  have hg := one_le_floorSqrt hW
  have hr : s % floorSqrt W < floorSqrt W := Nat.mod_lt _ hg
  have hj : level1Group W (hash 0 key) s < level0Size W (s % floorSqrt W) :=
    Nat.mod_lt _ (level0Size_pos hW hr (lt_of_le_of_lt (Nat.mod_le _ _) hs))
  have hlt : s % floorSqrt W + level1Group W (hash 0 key) s * floorSqrt W < W := by
    rw [level0Size, Nat.lt_iff_add_one_le, Nat.le_div_iff_mul_le hg, Nat.add_mul] at hj
    omega
  have hquot : (s % floorSqrt W + level1Group W (hash 0 key) s * floorSqrt W) / floorSqrt W
      = level1Group W (hash 0 key) s := by
    rw [Nat.add_mul_div_right _ _ hg, Nat.div_eq_of_lt hr, Nat.zero_add]
  refine ⟨?_, by omega⟩
  have h0 := exchangeTarget_level0 hW hs (hash 0 key)
  rw [← level1Group] at h0
  have h1 := exchangeTarget_level1 hW hlt (hash 1 key)
  rw [hquot] at h1
  simp only [route, twoLevelExchange, h0, h1, Option.bind_some]

/-- Equal keys meet: whatever the hash functions and the key, the worker that two levels
    of exchange deliver to does not depend on the worker a tuple starts on, and it is one
    existing worker. -/
structure CoLocates (W : ℕ) : Prop where
  same_target : ∀ {K : Type} (hash : ℕ → K → UInt64) (key : K) (s s' : ℕ), s < W → s' < W →
    route hash W key twoLevelExchange s = route hash W key twoLevelExchange s'
  exists_target : ∀ {K : Type} (hash : ℕ → K → UInt64) (key : K) (s : ℕ), s < W →
    ∃! d, d < W ∧ route hash W key twoLevelExchange s = some d

/-- Whatever the number of workers, every tuple ends on exactly one existing worker. -/
theorem existsUnique_route (hW : 1 ≤ W) {s : ℕ} (hs : s < W) {K : Type} (hash : ℕ → K → UInt64) (key : K) :
    ∃! d, d < W ∧ route hash W key twoLevelExchange s = some d := by
  obtain ⟨hroute, hgrp⟩ := route_twoLevelExchange hW hs hash key
  have hg := one_le_floorSqrt hW
  refine ⟨_, ⟨?_, hroute⟩, ?_⟩
  · have hpos : 0 < level1Size W (level1Group W (hash 0 key) s) := by
      rw [level1Size]; omega
    have := Nat.mod_lt (hash 1 key).toNat hpos
    rw [level1Size] at this ⊢
    omega
  · rintro d ⟨_, hd⟩
    rw [hroute, Option.some.injEq] at hd
    exact hd.symm

/-- When the number of groups divides the number of workers all level-0 groups have the
    same size. -/
theorem level0Size_of_dvd (hW : 1 ≤ W) (hdvd : floorSqrt W ∣ W) {r : ℕ} (hr : r < floorSqrt W) :
    level0Size W r = W / floorSqrt W := by
  have hmul : W / floorSqrt W * floorSqrt W = W := Nat.div_mul_cancel hdvd
  rw [level0Size]
  apply Nat.div_eq_of_lt_le
  · omega
  · rw [Nat.add_mul]; omega

/-- When it does not, the first group has one member more than the last one. -/
theorem level0Size_of_not_dvd (hW : 1 ≤ W) (hndvd : ¬ floorSqrt W ∣ W) : level0Size W 0 = W / floorSqrt W + 1 ∧
      level0Size W (floorSqrt W - 1) = W / floorSqrt W := by
  have hg := one_le_floorSqrt hW
  have hlt : W % floorSqrt W < floorSqrt W := Nat.mod_lt _ hg
  have hdiv := Nat.div_add_mod' W (floorSqrt W)
  rw [level0Size, level0Size]
  constructor
  · apply Nat.div_eq_of_lt_le <;> simp only [Nat.add_mul] <;> omega
  · apply Nat.div_eq_of_lt_le
    · omega
    · rw [Nat.add_mul]; omega

/-- **Two levels co-locate equal keys exactly if the number of groups divides the number of
    workers.**  Otherwise the first level-0 group has one member more than the last one, and
    a key whose hash is the size of the smaller one goes to different level-1 groups. -/
theorem coLocates_iff (W : ℕ) (hW : 1 ≤ W) (h64 : W < 2 ^ 64) :
    CoLocates W ↔ floorSqrt W ∣ W := by
  have hg := one_le_floorSqrt hW
  have hgW := floorSqrt_le hW
  constructor
  · intro hco
    by_contra hndvd
    obtain ⟨hfirst, hlast⟩ := level0Size_of_not_dvd hW hndvd
    have hc : 1 ≤ W / floorSqrt W := (Nat.one_le_div_iff hg).2 hgW
    have hcW : W / floorSqrt W ≤ W := Nat.div_le_self _ _
    have hnat : (UInt64.ofNat (W / floorSqrt W)).toNat = W / floorSqrt W :=
      UInt64.toNat_ofNat_of_lt' (lt_of_le_of_lt hcW h64)
    -- From worker `0` the tuple goes to the last level-1 group, from `floorSqrt W - 1` to the first.
    have hgrp : level1Group W (UInt64.ofNat (W / floorSqrt W)) 0 = W / floorSqrt W := by
      rw [level1Group, Nat.zero_mod, hfirst, hnat, Nat.mod_eq_of_lt (by omega)]
    have hgrp' : level1Group W (UInt64.ofNat (W / floorSqrt W)) (floorSqrt W - 1) = 0 := by
      have hr : (floorSqrt W - 1) % floorSqrt W = floorSqrt W - 1 := Nat.mod_eq_of_lt (by omega)
      rw [level1Group, hr, hlast, hnat, Nat.mod_self]
    have hsame := hco.same_target (fun _ _ => UInt64.ofNat (W / floorSqrt W)) () 0
      (floorSqrt W - 1) (by omega) (by omega)
    rw [(route_twoLevelExchange hW (by omega) _ _).1, (route_twoLevelExchange hW (by omega) _ _).1,
      hgrp, hgrp', Option.some.injEq, Nat.zero_mul, Nat.zero_add] at hsame
    have hpos : 0 < level1Size W 0 := by rw [level1Size]; omega
    have hrem : (UInt64.ofNat (W / floorSqrt W)).toNat % level1Size W 0 < floorSqrt W :=
      lt_of_lt_of_le (Nat.mod_lt _ hpos) (min_le_left _ _)
    have : floorSqrt W ≤ W / floorSqrt W * floorSqrt W := Nat.le_mul_of_pos_left _ hc
    omega
  · intro hdvd
    refine ⟨fun hash key s s' hs hs' => ?_, fun hash key s hs => existsUnique_route hW hs hash key⟩
    have hgrp : level1Group W (hash 0 key) s = level1Group W (hash 0 key) s' := by
      rw [level1Group, level1Group, level0Size_of_dvd hW hdvd (Nat.mod_lt _ hg),
        level0Size_of_dvd hW hdvd (Nat.mod_lt _ hg)]
    rw [(route_twoLevelExchange hW hs hash key).1, (route_twoLevelExchange hW hs' hash key).1, hgrp]

/-- Six workers form two groups, so equal keys meet. -/
theorem coLocates_iff_six : (1 ≤ 6 ∧ 6 < 2 ^ 64) ∧ floorSqrt 6 = 2 ∧ CoLocates 6 :=
  ⟨by norm_num, by decide +kernel,
    (coLocates_iff 6 (by norm_num) (by norm_num)).2 (by decide +kernel)⟩

/-- Five workers form the level-0 groups `0, 2, 4` and `1, 3`.  With the hash `2` in both
    levels a tuple goes from worker `0` to worker `4`, and from worker `1` to worker `0`. -/
theorem not_coLocates_five :
    route (fun _ (_ : Unit) => 2) 5 () twoLevelExchange 0 = some 4 ∧
      route (fun _ (_ : Unit) => 2) 5 () twoLevelExchange 1 = some 0 ∧ ¬ CoLocates 5 := by
  have h0 : route (fun _ (_ : Unit) => 2) 5 () twoLevelExchange 0 = some 4 := by decide +kernel
  have h1 : route (fun _ (_ : Unit) => 2) 5 () twoLevelExchange 1 = some 0 := by decide +kernel
  refine ⟨h0, h1, fun hco => ?_⟩
  have hsame := hco.same_target (fun _ (_ : Unit) => 2) () 0 1 (by norm_num) (by norm_num)
  rw [h0, h1] at hsame
  exact absurd hsame (by decide)

end TwoLevels

end Jitq.Runtime

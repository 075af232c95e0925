import Jitq.Lib.SortBy
import Mathlib.Logic.Relation
import Mathlib.Data.Finset.Card
import Mathlib.Data.Finset.Filter
import Mathlib.Data.List.Basic
import Mathlib.Data.Finset.Dedup
import Mathlib.Data.Finset.Max
import Mathlib.Data.Set.Function

namespace Graphs

open List

/-! # Finite graphs without cycles

A graph is the list of its edges.

* `Acyclic` — no path leads from a vertex back to itself;
* `acyclic_iff_rank` — equivalently, the vertices can be ranked along the edges;
* `IsTopologicalSort` — what a topological sort gives, and `isTopologicalSort_sinksFirst`, that there is one;
* `hasCycle` — a test that removes vertices without predecessors until none is left. -/

variable {V : Type}

def Edge (edges : List (V × V)) (u v : V) : Prop := (u, v) ∈ edges

/-- `v` can be reached from `u`, by one edge at least. -/
abbrev Reaches (edges : List (V × V)) : V → V → Prop := Relation.TransGen (Edge edges)

def Acyclic (edges : List (V × V)) : Prop := ∀ v, ¬ Reaches edges v v

/-- Ranks that increase along every edge. -/
def Ranked (edges : List (V × V)) (rank : V → ℕ) : Prop := ∀ e ∈ edges, rank e.1 < rank e.2

variable {edges : List (V × V)} {rank : V → ℕ}

theorem Ranked.lt_of_reaches (h : Ranked edges rank) {u v : V} (hreach : Reaches edges u v) : rank u < rank v := by
  induction hreach with
  | single hedge => exact h _ hedge
  | tail _ hedge ih => exact ih.trans (h _ hedge)

theorem Ranked.acyclic (h : Ranked edges rank) : Acyclic edges := fun _ hreach => lt_irrefl _ (h.lt_of_reaches hreach)

theorem exists_edge_of_reaches {u v : V} (h : Reaches edges u v) : ∃ w, (u, w) ∈ edges := by
  induction h with
  | single hedge => exact ⟨_, hedge⟩
  | tail _ _ ih => exact ih

open Classical in
/-- The number of vertices from which a vertex can be reached. -/
noncomputable def depth (edges : List (V × V)) (v : V) : ℕ :=
  ((edges.map Prod.fst).toFinset.filter fun u => Reaches edges u v).card

theorem Acyclic.ranked_depth (h : Acyclic edges) : Ranked edges (depth edges) := by
  classical
  rintro ⟨u, v⟩ hedge
  refine Finset.card_lt_card (Finset.ssubset_iff_of_subset ?_ |>.mpr ⟨u, ?_, ?_⟩)
  · intro w hw
    obtain ⟨hmem, hreach⟩ := Finset.mem_filter.mp hw
    exact Finset.mem_filter.mpr ⟨hmem, hreach.tail hedge⟩
  · refine Finset.mem_filter.mpr ⟨mem_toFinset.mpr (mem_map_of_mem hedge), ?_⟩
    exact Relation.TransGen.single hedge
  · intro hu
    exact h u (Finset.mem_filter.mp hu).2

theorem acyclic_iff_rank : Acyclic edges ↔ ∃ rank, Ranked edges rank :=
  ⟨fun h => ⟨_, h.ranked_depth⟩, fun ⟨_, h⟩ => h.acyclic⟩

theorem Acyclic.mono {edges' : List (V × V)} (h : Acyclic edges') (hsub : ∀ e ∈ edges, e ∈ edges') :
    Acyclic edges := by
  obtain ⟨rank, hrank⟩ := acyclic_iff_rank.mp h
  exact acyclic_iff_rank.mpr ⟨rank, fun e he => hrank e (hsub e he)⟩

/-- Renaming the vertices. -/
theorem Acyclic.map [Nonempty V] {W : Type} {ρ : V → W} {s : Set V} (h : Acyclic edges) (hρ : s.InjOn ρ)
    (hs : ∀ e ∈ edges, e.1 ∈ s ∧ e.2 ∈ s) : Acyclic (edges.map fun e => (ρ e.1, ρ e.2)) := by
  obtain ⟨rank, hrank⟩ := acyclic_iff_rank.mp h
  refine acyclic_iff_rank.mpr ⟨fun w => rank (Function.invFunOn ρ s w), fun e he => ?_⟩
  obtain ⟨e, hedge, rfl⟩ := mem_map.mp he
  obtain ⟨hu, hv⟩ := hs e hedge
  show rank (Function.invFunOn ρ s (ρ e.1)) < rank (Function.invFunOn ρ s (ρ e.2))
  rw [hρ.leftInvOn_invFunOn hu, hρ.leftInvOn_invFunOn hv]
  exact hrank e hedge
theorem edge_swap {u v : V} (h : Edge (edges.map Prod.swap) u v) : Edge edges v u := by
  obtain ⟨e, he, heq⟩ := mem_map.mp h
  cases heq
  exact he

theorem Reaches.swap {u v : V} (h : Reaches (edges.map Prod.swap) u v) : Reaches edges v u := by
  induction h with
  | single hedge => exact .single (edge_swap hedge)
  | tail _ hedge ih => exact ih.head (edge_swap hedge)

theorem Acyclic.swap (h : Acyclic edges) : Acyclic (edges.map Prod.swap) := fun v hreach => h v (Reaches.swap hreach)

/-! ### Topological sorts -/

/-- A function that orders the vertices of a graph. -/
abbrev TopologicalSort (V : Type) := List V → List (V × V) → List V

/-- For graphs without cycles, `sort` lists every vertex once, after its successors. -/
def IsTopologicalSort (sort : TopologicalSort V) : Prop :=
  ∀ vs edges, vs.Nodup → (∀ e ∈ edges, e.1 ∈ vs ∧ e.2 ∈ vs) → Acyclic edges → (sort vs edges).Perm vs ∧
      ∀ done v rest, sort vs edges = done ++ v :: rest → ∀ e ∈ edges, e.1 = v → e.2 ∈ done

/-- The vertices in the order of the number of vertices that they reach. -/
noncomputable def sinksFirst (vs : List V) (edges : List (V × V)) : List V :=
  SortBy.sortBy (depth (edges.map Prod.swap)) vs

theorem isTopologicalSort_sinksFirst : IsTopologicalSort (sinksFirst (V := V)) := by
  intro vs edges _ hclosed hacyc
  refine ⟨SortBy.sortBy_perm _ _, fun done v rest horder e he hsrc => ?_⟩
  have hlt : depth (edges.map Prod.swap) e.2 < depth (edges.map Prod.swap) v :=
    hsrc ▸ hacyc.swap.ranked_depth e.swap (mem_map_of_mem he)
  have hsorted := SortBy.sortBy_sorted (depth (edges.map Prod.swap)) vs
  have hmem : e.2 ∈ sinksFirst vs edges := SortBy.mem_sortBy.mpr (hclosed e he).2
  rw [sinksFirst] at horder hmem
  rw [horder] at hsorted hmem
  -- the successor has a smaller depth than `v`, so that it does not come later
  rcases mem_append.mp hmem with hmem | hmem
  · exact hmem
  · obtain ⟨-, htail, -⟩ := pairwise_append.mp hsorted
    rcases mem_cons.mp hmem with heq | hmem
    · exact absurd hlt (heq ▸ lt_irrefl _)
    · exact absurd hlt (not_lt.mpr ((pairwise_cons.mp htail).1 e.2 hmem))

/-! ### The test -/

variable [DecidableEq V]

/-- The vertices that have a predecessor among `vs`. -/
def peel (edges : List (V × V)) (vs : List V) : List V := vs.filter fun v => vs.any fun u => (u, v) ∈ edges

/-- Whether vertices are left after those without predecessors have been removed as often as there are
    vertices. -/
def hasCycle (edges : List (V × V)) (vs : List V) : Bool := !((peel edges)^[vs.length] vs).isEmpty

theorem peel_length_lt (h : Ranked edges rank) {vs : List V} (hvs : vs ≠ []) :
    (peel edges vs).length < vs.length := by
  -- a vertex of the least rank is removed
  obtain ⟨v, hv, hmin⟩ : ∃ v ∈ vs, ∀ u ∈ vs, rank v ≤ rank u := by
    obtain ⟨v, hv, hmin⟩ := (vs.toFinset).exists_min_image rank
      (by obtain ⟨x, hx⟩ := exists_mem_of_ne_nil vs hvs; exact ⟨x, mem_toFinset.mpr hx⟩)
    exact ⟨v, mem_toFinset.mp hv, fun u hu => hmin u (mem_toFinset.mpr hu)⟩
  refine length_filter_lt_length_iff_exists.mpr ⟨v, hv, ?_⟩
  intro hany
  obtain ⟨u, hu, hedge⟩ := any_eq_true.mp hany
  exact absurd (h (u, v) (of_decide_eq_true hedge)) (not_lt.mpr (hmin u hu))

theorem hasCycle_eq_false (h : Acyclic edges) (vs : List V) : hasCycle edges vs = false := by
  obtain ⟨rank, hrank⟩ := acyclic_iff_rank.mp h
  have hempty : ∀ (n : ℕ) (vs : List V), vs.length ≤ n → (peel edges)^[n] vs = [] := by
    intro n
    induction n with
    | zero => exact fun vs hle => eq_nil_of_length_eq_zero (Nat.le_zero.mp hle)
    | succ n ih =>
      intro vs hle
      refine ih _ ?_
      by_cases hvs : vs = []
      · simp [hvs, peel]
      · have := peel_length_lt hrank hvs
        omega
  unfold hasCycle
  rw [hempty _ vs le_rfl]
  rfl

omit [DecidableEq V] in
/-- A vertex of a cycle has a predecessor on the cycle. -/
theorem exists_predecessor_of_reaches {v : V} (h : Reaches edges v v) : ∃ u, (u, v) ∈ edges ∧ Reaches edges u u := by
  obtain ⟨u, hpath, hedge⟩ := Relation.TransGen.tail'_iff.mp h
  exact ⟨u, hedge, Relation.TransGen.head' hedge hpath⟩

theorem hasCycle_iff {vs : List V} (hclosed : ∀ e ∈ edges, e.1 ∈ vs) :
    hasCycle edges vs = true ↔ ¬ Acyclic edges := by
  constructor
  · intro h hacyc
    rw [hasCycle_eq_false hacyc] at h
    cases h
  · intro h
    obtain ⟨v, hv⟩ := not_forall_not.mp h
    -- the vertices of the cycles are never removed
    have hkept : ∀ n u, Reaches edges u u → u ∈ (peel edges)^[n] vs := by
      intro n
      induction n with
      | zero =>
        intro u hu
        obtain ⟨w, hw⟩ := exists_edge_of_reaches hu
        exact hclosed _ hw
      | succ n ih =>
        intro u hu
        obtain ⟨w, hw, hcycle⟩ := exists_predecessor_of_reaches hu
        rw [Function.iterate_succ_apply']
        exact mem_filter.mpr ⟨ih u hu, any_eq_true.mpr ⟨w, ih w hcycle, by simpa using hw⟩⟩
    unfold hasCycle
    rw [Bool.not_eq_true', isEmpty_eq_false_iff]
    exact ne_nil_of_mem (hkept vs.length v hv)

end Graphs

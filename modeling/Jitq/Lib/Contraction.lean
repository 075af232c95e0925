import Jitq.Lib.Graphs
import Mathlib.Data.Prod.Lex

namespace Graphs

open List

/-! # Contracting an edge

`o → p` is contracted when `o` is replaced by `p` and the edge itself is dropped.

* `IsContraction.acyclic` — no cycle arises if no other successor of `o` leads to `p`;
* `IsContraction.reaches` — paths stay paths, unless they shrink to a vertex;
* `IsContraction.leadsTo_iff` — which vertices lead to a given one;
* `layeredRank` — a rank for two graphs with edges from the first to the second. -/

variable {V : Type} [DecidableEq V] {edges edges' : List (V × V)} {p o : V}

/-- `o` is replaced by `p`. -/
def contract (p o v : V) : V := if v = o then p else v

theorem contract_of_ne {v : V} (h : v ≠ o) : contract p o v = v := if_neg h

@[simp] theorem contract_self : contract p o o = p := if_pos rfl

@[simp] theorem contract_target : contract p o p = p := by
  unfold contract
  split <;> rfl

/-- The edges after `o → p` has been contracted. -/
def IsContraction (p o : V) (edges edges' : List (V × V)) : Prop :=
  ∀ e', e' ∈ edges' ↔ ∃ e ∈ edges, e ≠ (o, p) ∧ e' = (contract p o e.1, contract p o e.2)

omit [DecidableEq V] in
theorem acyclic_of_lt {α : Type} [Preorder α] (rank : V → α) (h : ∀ e ∈ edges, rank e.1 < rank e.2) :
    Acyclic edges := by
  have hlt : ∀ u v, Reaches edges u v → rank u < rank v := by
    intro u v hreach
    induction hreach with
    | single hedge => exact h _ hedge
    | tail _ hedge ih => exact ih.trans (h _ hedge)
  exact fun v hreach => lt_irrefl _ (hlt v v hreach)

theorem IsContraction.reaches (h : IsContraction p o edges edges') {u v : V} (hreach : Reaches edges u v) :
    contract p o u = contract p o v ∨ Reaches edges' (contract p o u) (contract p o v) := by
  have hstep : ∀ {x y}, Edge edges x y →
      contract p o x = contract p o y ∨ Edge edges' (contract p o x) (contract p o y) := by
    intro x y hedge
    by_cases heq : (x, y) = (o, p)
    · left
      cases heq
      rw [contract_self, contract_target]
    · exact .inr ((h _).mpr ⟨(x, y), hedge, heq, rfl⟩)
  induction hreach with
  | single hedge => exact (hstep hedge).imp_right .single
  | tail _ hedge ih =>
    rcases ih with heq | hreach <;> rcases hstep hedge with heq' | hedge'
    · exact .inl (heq.trans heq')
    · exact .inr (heq ▸ .single hedge')
    · exact .inr (heq' ▸ hreach)
    · exact .inr (hreach.tail hedge')

open Classical in
/-- The vertices that lead to `p`, then `p`, then the others, each along a rank. -/
noncomputable def contractedRank (edges : List (V × V)) (p : V) (v : V) : ℕ ×ₗ ℕ :=
  if v = p then toLex (1, 0) else if Reaches edges v p then toLex (0, depth edges v)
  else toLex (2, depth edges v)

theorem IsContraction.acyclic (h : IsContraction p o edges edges') (hacyc : Acyclic edges)
    (hedge : (o, p) ∈ edges) (hsafe : ∀ t, (o, t) ∈ edges → t ≠ p → ¬ Reaches edges t p) :
    Acyclic edges' := by
  have hop : Reaches edges o p := .single hedge
  refine acyclic_of_lt (contractedRank edges p) fun e' he' => ?_
  obtain ⟨⟨x, y⟩, he, hne, rfl⟩ := (h e').mp he'
  have hstep : Reaches edges x y := .single he
  have hrank := hacyc.ranked_depth (x, y) he
  by_cases hy : y = p ∨ y = o
  · -- an edge to the contracted vertex comes from a vertex that leads to `p`
    have hxp : Reaches edges x p := by
      rcases hy with rfl | rfl
      · exact hstep
      · exact hstep.trans hop
    have hx : x ≠ o := by
      rintro rfl
      rcases hy with rfl | rfl
      · exact hne rfl
      · exact hacyc _ hstep
    have hx' : x ≠ p := fun heq => hacyc p (heq ▸ hxp)
    have hcy : contract p o y = p := by
      rcases hy with rfl | rfl
      · exact contract_target
      · exact contract_self
    rw [contract_of_ne hx, hcy, contractedRank, if_neg hx', if_pos hxp, contractedRank, if_pos rfl]
    exact Prod.Lex.toLex_lt_toLex.mpr (.inl Nat.zero_lt_one)
  · rw [not_or] at hy
    rw [contract_of_ne hy.2]
    by_cases hx : x = p ∨ x = o
    · -- an edge from it leads to a vertex that does not lead to `p`
      have hyp : ¬ Reaches edges y p := by
        rcases hx with rfl | rfl
        · exact fun hreach => hacyc _ (hstep.trans hreach)
        · exact hsafe y he hy.1
      have hcx : contract p o x = p := by
        rcases hx with rfl | rfl
        · exact contract_target
        · exact contract_self
      rw [hcx, contractedRank, if_pos rfl, contractedRank, if_neg hy.1, if_neg hyp]
      exact Prod.Lex.toLex_lt_toLex.mpr (.inl Nat.one_lt_two)
    · rw [not_or] at hx
      rw [contract_of_ne hx.2, contractedRank, if_neg hx.1, contractedRank, if_neg hy.1]
      by_cases hyp : Reaches edges y p
      · rw [if_pos hyp, if_pos (hstep.trans hyp)]
        exact Prod.Lex.toLex_lt_toLex.mpr (.inr ⟨rfl, hrank⟩)
      · rw [if_neg hyp]
        split
        · exact Prod.Lex.toLex_lt_toLex.mpr (.inl Nat.zero_lt_two)
        · exact Prod.Lex.toLex_lt_toLex.mpr (.inr ⟨rfl, hrank⟩)

/-! ### Two layers -/

open Classical in
/-- The vertices of a first graph, then those of a second one, each along a rank. -/
noncomputable def layeredRank (first : V → Prop) (edges edges' : List (V × V)) (v : V) : ℕ ×ₗ ℕ :=
  if first v then toLex (0, depth edges v) else toLex (1, depth edges' v)

section

variable {first : V → Prop} {u v : V}

omit [DecidableEq V]

theorem layeredRank_lt_first (hacyc : Acyclic edges) (hedge : (u, v) ∈ edges) (hu : first u) (hv : first v) :
    layeredRank first edges edges' u < layeredRank first edges edges' v := by
  rw [layeredRank, if_pos hu, layeredRank, if_pos hv]
  exact Prod.Lex.toLex_lt_toLex.mpr (.inr ⟨rfl, hacyc.ranked_depth _ hedge⟩)

theorem layeredRank_lt_second (hacyc : Acyclic edges') (hedge : (u, v) ∈ edges') (hu : ¬ first u)
    (hv : ¬ first v) : layeredRank first edges edges' u < layeredRank first edges edges' v := by
  rw [layeredRank, if_neg hu, layeredRank, if_neg hv]
  exact Prod.Lex.toLex_lt_toLex.mpr (.inr ⟨rfl, hacyc.ranked_depth _ hedge⟩)

theorem layeredRank_lt (hu : first u) (hv : ¬ first v) :
    layeredRank first edges edges' u < layeredRank first edges edges' v := by
  rw [layeredRank, if_pos hu, layeredRank, if_neg hv]
  exact Prod.Lex.toLex_lt_toLex.mpr (.inl Nat.zero_lt_one)

end

/-! ### Leading to a vertex -/

/-- `t` can be reached from `v`, or is `v`. -/
def LeadsTo (edges : List (V × V)) (t v : V) : Prop := v = t ∨ Reaches edges v t

omit [DecidableEq V] in
theorem LeadsTo.head {t u v : V} (hedge : (u, v) ∈ edges) (h : LeadsTo edges t v) : LeadsTo edges t u := by
  rcases h with rfl | h
  · exact .inr (.single hedge)
  · exact .inr (h.head hedge)

/-- Contracting two vertices of which both or none lead to `t` changes this for no vertex. -/
theorem IsContraction.leadsTo_iff (h : IsContraction p o edges edges') {t : V} (ht : t ≠ o)
    (hedge : (o, p) ∈ edges) (hboth : LeadsTo edges t o → LeadsTo edges t p) {v : V} (hv : v ≠ o) :
    LeadsTo edges' t v ↔ LeadsTo edges t v := by
  constructor
  · have hback : ∀ u w, Edge edges' u w → LeadsTo edges t w → LeadsTo edges t u := by
      intro u w huw hw
      obtain ⟨⟨x, y⟩, he, -, heq⟩ := (h _).mp huw
      cases heq
      have hy : LeadsTo edges t y := by
        by_cases hyo : y = o
        · rw [hyo, contract_self] at hw
          rw [hyo]
          exact hw.head hedge
        · rwa [contract_of_ne hyo] at hw
      have hx : LeadsTo edges t x := hy.head he
      by_cases hxo : x = o
      · rw [hxo, contract_self]
        exact hboth (hxo ▸ hx)
      · rwa [contract_of_ne hxo]
    rintro (rfl | hreach)
    · exact .inl rfl
    · clear hv
      induction hreach using Relation.TransGen.head_induction_on with
      | single hedge' => exact hback _ _ hedge' (.inl rfl)
      | head hedge' _ ih => exact hback _ _ hedge' ih
  · rintro (rfl | hreach)
    · exact .inl rfl
    · rcases h.reaches hreach with heq | hreach'
      · rw [contract_of_ne hv, contract_of_ne ht] at heq
        exact .inl heq
      · rw [contract_of_ne hv, contract_of_ne ht] at hreach'
        exact .inr hreach'

/-! ### Orders -/

/-- Successors are listed before. -/
theorem IsTopologicalSort.idxOf_lt {sort : List V → List (V × V) → List V} (hsort : IsTopologicalSort sort)
    {vs : List V} (hnd : vs.Nodup) (hclosed : ∀ e ∈ edges, e.1 ∈ vs ∧ e.2 ∈ vs) (hacyc : Acyclic edges)
    {u v : V} (hreach : Reaches edges u v) : (sort vs edges).idxOf v < (sort vs edges).idxOf u := by
  obtain ⟨hperm, hfirst⟩ := hsort vs edges hnd hclosed hacyc
  have hstep : ∀ {x y}, Edge edges x y → (sort vs edges).idxOf y < (sort vs edges).idxOf x := by
    intro x y hedge
    obtain ⟨done, rest, hsplit⟩ := append_of_mem (hperm.mem_iff.mpr (hclosed _ hedge).1)
    have hy : y ∈ done := hfirst done x rest hsplit _ hedge rfl
    have hx : x ∉ done := by
      have hnd' := hperm.symm.nodup hnd
      rw [hsplit] at hnd'
      exact fun hmem => disjoint_of_nodup_append hnd' hmem mem_cons_self
    rw [hsplit, idxOf_append_of_mem hy, idxOf_append_of_notMem hx]
    exact Nat.lt_of_lt_of_le (idxOf_lt_length_of_mem hy) (Nat.le_add_right _ _)
  induction hreach with
  | single hedge => exact hstep hedge
  | tail _ hedge ih => exact (hstep hedge).trans ih

open Classical in
/-- A topological sort that lists the vertices that lead to `t` as late as possible. -/
noncomputable def holdBack (t : V) (vs : List V) (edges : List (V × V)) : List V :=
  (sinksFirst vs edges).filter (fun v => ¬ LeadsTo edges t v) ++
    (sinksFirst vs edges).filter fun v => LeadsTo edges t v

omit [DecidableEq V] in
theorem mem_of_pair_sublist {done rest : List V} {u v : V} (hnd : (done ++ u :: rest).Nodup)
    (h : [v, u].Sublist (done ++ u :: rest)) : v ∈ done := by
  have hu : u ∉ rest := (nodup_cons.mp (nodup_append.mp hnd).2.1).1
  obtain ⟨l1, l2, heq, h1, h2⟩ := sublist_append_iff.mp h
  cases l1 with
  | nil =>
    -- otherwise `u` would come twice
    rw [nil_append] at heq
    subst heq
    cases h2 with
    | cons _ h2 => exact absurd (h2.subset (mem_cons_of_mem v mem_cons_self)) hu
    | cons_cons _ h2 => exact absurd (h2.subset mem_cons_self) hu
  | cons w l1 =>
    obtain ⟨rfl, -⟩ := List.cons.inj heq
    exact h1.subset mem_cons_self

omit [DecidableEq V] in
theorem isTopologicalSort_holdBack (t : V) : IsTopologicalSort (holdBack t) := by
  classical
  intro vs edges hnd hclosed hacyc
  obtain ⟨hperm, hfirst⟩ := isTopologicalSort_sinksFirst vs edges hnd hclosed hacyc
  have hpart : (holdBack t vs edges).Perm (sinksFirst vs edges) := by
    refine (List.Perm.of_eq ?_).trans ((perm_append_comm).trans
      (filter_append_perm (fun v => decide (LeadsTo edges t v)) (sinksFirst vs edges)))
    simp [holdBack]
  refine ⟨hpart.trans hperm, fun done v rest horder e he hsrc => ?_⟩
  subst hsrc
  refine mem_of_pair_sublist (horder ▸ (hpart.trans hperm).symm.nodup hnd) ?_
  rw [← horder]
  have hmem := hclosed e he
  have hpair : [e.2, e.1].Sublist (sinksFirst vs edges) := by
    obtain ⟨before, after, hsplit⟩ := append_of_mem (hperm.mem_iff.mpr hmem.1)
    rw [hsplit]
    have hbefore := hfirst before e.1 after hsplit e he rfl
    exact (singleton_sublist.mpr hbefore).append (singleton_sublist.mpr mem_cons_self)
  by_cases hu : LeadsTo edges t e.1
  · by_cases hv : LeadsTo edges t e.2
    · refine List.Sublist.trans ?_ (sublist_append_right _ _)
      simpa [hu, hv] using hpair.filter fun v => decide (LeadsTo edges t v)
    · show ([e.2] ++ [e.1]).Sublist _
      refine List.Sublist.append ?_ ?_
      · exact singleton_sublist.mpr (mem_filter.mpr ⟨hperm.mem_iff.mpr hmem.2, by simpa using hv⟩)
      · exact singleton_sublist.mpr (mem_filter.mpr ⟨hperm.mem_iff.mpr hmem.1, by simpa using hu⟩)
  · have hv : ¬ LeadsTo edges t e.2 := fun hv => hu (hv.head he)
    refine List.Sublist.trans ?_ (sublist_append_left _ _)
    simpa [hu, hv] using hpair.filter fun v => decide (¬ LeadsTo edges t v)

/-- A vertex that leads to `t` comes after one that does not. -/
theorem idxOf_holdBack_lt {t u v : V} {vs : List V} (hu : ¬ LeadsTo edges t u) (hv : LeadsTo edges t v)
    (hmem : u ∈ vs) : (holdBack t vs edges).idxOf u < (holdBack t vs edges).idxOf v := by
  classical
  unfold holdBack
  have hu' : u ∈ (sinksFirst vs edges).filter fun v => ¬ LeadsTo edges t v :=
    mem_filter.mpr ⟨SortBy.mem_sortBy.mpr hmem, by simpa using hu⟩
  have hv' : v ∉ (sinksFirst vs edges).filter fun v => ¬ LeadsTo edges t v := by
    intro hmem
    exact absurd hv (by simpa using (mem_filter.mp hmem).2)
  rw [idxOf_append_of_mem hu', idxOf_append_of_notMem hv']
  exact Nat.lt_of_lt_of_le (idxOf_lt_length_of_mem hu') (Nat.le_add_right _ _)

end Graphs

import Jitq.Lib.Checked
import Jitq.Lib.Graphs

namespace Sweep

open Checked Graphs Function List

/-! # Sweeps over a graph

A sweep visits the vertices one after the other, and computes a new value of each from its own value and
from the values of its predecessors.  If predecessors come first, then the result is the solution of one
equation per vertex (`sweep_eq_ok_iff`), and these do not mention the order. -/

variable {V α ε : Type}

def sweep [DecidableEq V] (f : V → (V → α) → Except ε α) (order : List V) (s : V → α) : Except ε (V → α) :=
  order.foldlM (fun s v => do
    let a ← f v s
    Except.ok (update s v a)) s

/-- Every vertex comes after its predecessors. -/
def PredecessorsFirst (edges : List (V × V)) (order : List V) : Prop :=
  ∀ done v rest, order = done ++ v :: rest → ∀ e ∈ edges, e.2 = v → e.1 ∈ done

/-- The new value of a vertex depends on its own value and on those of its predecessors. -/
def IsLocal (edges : List (V × V)) (f : V → (V → α) → Except ε α) : Prop :=
  ∀ v s s', s v = s' v → (∀ e ∈ edges, e.2 = v → s e.1 = s' e.1) → f v s = f v s'

/-- Every vertex has the value that is computed from its value in `s` and from the values of the
    predecessors in `r`. -/
structure IsSolution [DecidableEq V] (f : V → (V → α) → Except ε α) (s : V → α) (vs : List V) (r : V → α) : Prop where
  visited : ∀ v ∈ vs, f v (update r v (s v)) = .ok (r v)
  kept : ∀ v ∉ vs, r v = s v

variable {f : V → (V → α) → Except ε α} {edges : List (V × V)} {order : List V} {s r : V → α}

theorem PredecessorsFirst.of_append {done rest : List V} (h : PredecessorsFirst edges (done ++ rest)) :
    PredecessorsFirst edges done := by
  intro before v after hdone
  apply h before v (after ++ rest)
  rw [hdone, append_assoc, cons_append]

/-- The predecessors of a vertex of the order are others. -/
theorem PredecessorsFirst.mem_ne (h : PredecessorsFirst edges order) (hnd : order.Nodup) {e : V × V}
    (he : e ∈ edges) (hmem : e.2 ∈ order) : e.1 ∈ order ∧ e.1 ≠ e.2 := by
  obtain ⟨done, rest, hsplit⟩ := append_of_mem hmem
  have hdone := h done e.2 rest hsplit e he rfl
  subst hsplit
  refine ⟨mem_append_left _ hdone, ?_⟩
  intro heq
  exact disjoint_of_nodup_append hnd hdone (heq ▸ mem_cons_self)

variable [DecidableEq V]

theorem sweep_concat {v : V} : sweep f (order ++ [v]) s = .ok r ↔
    ∃ r0, sweep f order s = .ok r0 ∧ ∃ a, f v r0 = .ok a ∧ r = update r0 v a := by
  unfold sweep
  rw [foldlM_append, bind_eq_ok]
  refine exists_congr fun r0 => and_congr_right fun _ => ?_
  rw [foldlM_cons, bind_eq_ok]
  constructor
  · rintro ⟨r1, hvisit, hrest⟩
    obtain ⟨a, ha, hr1⟩ := bind_eq_ok.mp hvisit
    exact ⟨a, ha, (Except.ok.inj hrest).symm.trans (Except.ok.inj hr1).symm⟩
  · rintro ⟨a, ha, rfl⟩
    exact ⟨_, bind_eq_ok.mpr ⟨a, ha, rfl⟩, rfl⟩

/-- Whether `u` is solved does not depend on a later vertex `v`. -/
theorem IsLocal.update_later (hlocal : IsLocal edges f) {u v : V}
    (hpred : ∀ e ∈ edges, e.2 = u → e.1 ≠ u ∧ e.1 ≠ v) (a b : α) :
    f u (update (update r v a) u b) = f u (update r u b) := by
  apply hlocal
  · rw [update_self, update_self]
  · intro e he htgt
    obtain ⟨hne, hlater⟩ := hpred e he htgt
    rw [update_of_ne hne, update_of_ne hlater, update_of_ne hne]

theorem sweep_eq_ok_iff (hlocal : IsLocal edges f) (hfirst : PredecessorsFirst edges order)
    (hnd : order.Nodup) : sweep f order s = .ok r ↔ IsSolution f s order r := by
  -- the last vertex of the order is solved after all others, and none of them reads it
  induction order using reverseRecOn generalizing r with
  | nil =>
    constructor
    · intro h
      cases h
      exact ⟨fun v hv => absurd hv not_mem_nil, fun _ _ => rfl⟩
    · intro h
      have hr : s = r := funext fun v => (h.kept v not_mem_nil).symm
      rw [hr]
      rfl
  | append_singleton order v ih =>
    obtain ⟨hnd', -, hdisj⟩ := nodup_append.mp hnd
    have hv : v ∉ order := fun hmem => hdisj v hmem v (mem_singleton_self v) rfl
    have hfirst' := hfirst.of_append
    have hpred : ∀ u ∈ order, ∀ e ∈ edges, e.2 = u → e.1 ≠ u ∧ e.1 ≠ v := by
      rintro u hu e he rfl
      obtain ⟨hmem, hne⟩ := hfirst'.mem_ne hnd' he hu
      exact ⟨hne, fun heq => hv (heq ▸ hmem)⟩
    have hlater : ∀ u ∈ order, u ≠ v := fun u hu heq => hv (heq ▸ hu)
    rw [sweep_concat]
    constructor
    · rintro ⟨r0, hrun, a, ha, rfl⟩
      have hr0 := (ih hfirst' hnd').mp hrun
      refine ⟨fun u hu => ?_, fun u hu => ?_⟩
      · rcases mem_append.mp hu with hu | hu
        · rw [hlocal.update_later (hpred u hu), update_of_ne (hlater u hu)]
          exact hr0.visited u hu
        · obtain rfl := mem_singleton.mp hu
          rw [update_idem, update_self, ← hr0.kept u hv, update_eq_self]
          exact ha
      · rw [mem_append, not_or, mem_singleton] at hu
        rw [update_of_ne hu.2]
        exact hr0.kept u hu.1
    · intro hr
      refine ⟨update r v (s v), (ih hfirst' hnd').mpr ⟨fun u hu => ?_, fun u hu => ?_⟩, r v, ?_, ?_⟩
      · rw [hlocal.update_later (hpred u hu), update_of_ne (hlater u hu)]
        exact hr.visited u (mem_append_left _ hu)
      · by_cases huv : u = v
        · rw [huv, update_self]
        · rw [update_of_ne huv]
          apply hr.kept u
          rw [mem_append, not_or, mem_singleton]
          exact ⟨hu, huv⟩
      · exact hr.visited v (mem_append_right _ (mem_singleton_self v))
      · rw [update_idem, update_eq_self]

/-- A topological sort lists successors first, so that its reverse lists predecessors first. -/
theorem predecessorsFirst_reverse {sort : List V → List (V × V) → List V} (hsort : IsTopologicalSort sort)
    {vs : List V} (hnd : vs.Nodup) (hclosed : ∀ e ∈ edges, e.1 ∈ vs ∧ e.2 ∈ vs)
    (hacyc : Acyclic edges) : PredecessorsFirst edges (sort vs edges).reverse := by
  obtain ⟨hperm, hsuccessors⟩ := hsort vs edges hnd hclosed hacyc
  intro done v rest horder e he htgt
  have hsplit : sort vs edges = rest.reverse ++ v :: done.reverse := by
    rw [← reverse_reverse (sort vs edges), horder]
    simp
  by_contra hnot
  -- otherwise the predecessor comes before `v` in the sort, and `v` before it
  have hmem : e.1 ∈ rest.reverse := by
    have hmem := hperm.mem_iff.mpr (hclosed e he).1
    rw [hsplit] at hmem
    rcases mem_append.mp hmem with hmem | hmem
    · exact hmem
    · rcases mem_cons.mp hmem with heq | hmem
      · have hloop : Edge edges v v := by
          show (v, v) ∈ edges
          rwa [show (v, v) = e from Prod.ext heq.symm htgt.symm]
        exact absurd (.single hloop) (hacyc v)
      · exact absurd (mem_reverse.mp hmem) hnot
  obtain ⟨before, after, hrest⟩ := append_of_mem hmem
  have hv := hsuccessors before e.1 (after ++ v :: done.reverse)
    (by rw [hsplit, hrest, append_assoc, cons_append]) e he rfl
  rw [htgt] at hv
  have hnd' := hperm.symm.nodup hnd
  rw [hsplit, hrest] at hnd'
  exact disjoint_of_nodup_append hnd' (mem_append_left _ hv) mem_cons_self

end Sweep

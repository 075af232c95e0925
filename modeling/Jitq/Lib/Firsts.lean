import Mathlib.Data.List.Basic
import Mathlib.Data.List.Perm.Basic

namespace Firsts

open List

/-! # First occurrences

`firsts key xs` keeps, of the elements of `xs` with one key, the first.  Two lists whose keys repeat at
the same places (`SamePattern`) keep their elements at the same places, too.  `perm_flatMap_filter` puts
a list in the order of its keys. -/

variable {α β κ : Type} [DecidableEq κ]

def addNew (key : α → κ) (out : List α) (x : α) : List α := if key x ∈ out.map key then out else out ++ [x]

def firsts (key : α → κ) (xs : List α) : List α := xs.foldl (addNew key) []

/-! ### One list -/

variable {key : α → κ} {xs out : List α}

theorem mem_foldl_addNew {y : α} (h : y ∈ xs.foldl (addNew key) out) : y ∈ out ∨ y ∈ xs := by
  induction xs generalizing out with
  | nil => exact .inl h
  | cons x xs ih =>
    rcases ih h with hout | hxs
    · unfold addNew at hout
      split at hout
      · exact .inl hout
      · rcases mem_append.mp hout with hout | hx
        · exact .inl hout
        · exact .inr (mem_cons.mpr (.inl (mem_singleton.mp hx)))
    · exact .inr (mem_cons_of_mem _ hxs)

theorem mem_map_addNew {x : α} {k : κ} : k ∈ (addNew key out x).map key ↔ k ∈ out.map key ∨ k = key x := by
  unfold addNew
  split
  · next hx =>
    constructor
    · exact .inl
    · rintro (hk | rfl)
      · exact hk
      · exact hx
  · simp only [map_append, map_cons, map_nil, mem_append, mem_singleton]

theorem mem_map_foldl_addNew {k : κ} :
    k ∈ (xs.foldl (addNew key) out).map key ↔ k ∈ out.map key ∨ k ∈ xs.map key := by
  induction xs generalizing out with
  | nil => simp
  | cons x xs ih =>
    rw [foldl_cons, ih, mem_map_addNew, map_cons, mem_cons, or_assoc]

/-- Elements whose keys are all there change nothing. -/
theorem foldl_addNew_of_mem (h : ∀ x ∈ xs, key x ∈ out.map key) : xs.foldl (addNew key) out = out := by
  induction xs with
  | nil => rfl
  | cons x xs ih =>
    rw [foldl_cons, addNew, if_pos (h x mem_cons_self)]
    exact ih fun y hy => h y (mem_cons_of_mem _ hy)

theorem mem_of_mem_firsts {y : α} (h : y ∈ firsts key xs) : y ∈ xs := (mem_foldl_addNew h).resolve_left not_mem_nil

theorem exists_mem_firsts (key : α → κ) {x : α} (h : x ∈ xs) : ∃ y ∈ firsts key xs, key y = key x := by
  have hk : key x ∈ (firsts key xs).map key := mem_map_foldl_addNew.mpr (.inr (mem_map_of_mem h))
  exact mem_map.mp hk

/-! ### Two lists -/

/-- The keys of the two lists repeat at the same places. -/
def SamePattern (xs ys : List κ) : Prop :=
  xs.length = ys.length ∧ ∀ p ∈ xs.zip ys, ∀ q ∈ xs.zip ys, p.1 = q.1 ↔ p.2 = q.2

instance (xs ys : List κ) : Decidable (SamePattern xs ys) := inferInstanceAs (Decidable (_ ∧ _))

theorem firsts_map (f : β → α) (key : α → κ) (ws : List β) :
    (firsts (fun w => key (f w)) ws).map f = firsts key (ws.map f) := by
  suffices ∀ out : List β,
      (ws.foldl (addNew fun w => key (f w)) out).map f = (ws.map f).foldl (addNew key) (out.map f)
    from this []
  induction ws with
  | nil => exact fun _ => rfl
  | cons w ws ih =>
    intro out
    have hstep : (addNew (fun w => key (f w)) out w).map f = addNew key (out.map f) (f w) := by
      unfold addNew
      rw [map_map]
      show (if key (f w) ∈ out.map (key ∘ f) then out else out ++ [w]).map f = _
      split
      · rfl
      · rw [map_append, map_singleton]
    rw [foldl_cons, ih, hstep, map_cons, foldl_cons]

/-- Only which keys are equal matters. -/
theorem firsts_congr {key' : α → κ} {ws : List α} (h : ∀ v ∈ ws, ∀ w ∈ ws, key v = key w ↔ key' v = key' w) :
    firsts key ws = firsts key' ws := by
  suffices ∀ vs out : List α, (∀ v ∈ vs, v ∈ ws) → (∀ v ∈ out, v ∈ ws) →
      vs.foldl (addNew key) out = vs.foldl (addNew key') out
    from this ws [] (fun _ hv => hv) (fun _ hv => absurd hv not_mem_nil)
  intro vs
  induction vs with
  | nil => exact fun _ _ _ => rfl
  | cons v vs ih =>
    intro out hvs hout
    have hv := hvs v mem_cons_self
    have hmem : key v ∈ out.map key ↔ key' v ∈ out.map key' := by
      simp only [mem_map]
      exact exists_congr fun w => and_congr_right fun hw => h w (hout w hw) v hv
    have hstep : addNew key out v = addNew key' out v := by
      exact if_congr hmem rfl rfl
    rw [foldl_cons, foldl_cons, hstep]
    refine ih _ (fun w hw => hvs w (mem_cons_of_mem _ hw)) fun w hw => ?_
    have hw : w ∈ [v].foldl (addNew key') out := hw
    rcases mem_foldl_addNew hw with hw | hw
    · exact hout w hw
    · exact (mem_singleton.mp hw) ▸ hv

/-! ### Groups -/

/-- A list is a rearrangement of its groups of equal keys. -/
theorem perm_flatMap_filter (key : α → κ) {l : List α} {ks : List κ} (hks : ks.Nodup)
    (hmem : ∀ a ∈ l, key a ∈ ks) : (ks.flatMap fun k => l.filter fun a => key a = k).Perm l := by
  induction ks generalizing l with
  | nil =>
    have hnil : l = [] := eq_nil_iff_forall_not_mem.mpr fun a ha => by simpa using hmem a ha
    rw [hnil]
    exact List.Perm.refl _
  | cons k ks ih =>
    obtain ⟨hk, hks⟩ := nodup_cons.mp hks
    -- the elements with the other keys, from which the other groups are taken
    have hrest := ih (l := l.filter fun a => key a ≠ k) hks fun a ha => by
      obtain ⟨ha, hne⟩ := mem_filter.mp ha
      exact (mem_cons.mp (hmem a ha)).resolve_left (of_decide_eq_true hne)
    have hgrps : (ks.flatMap fun k' => l.filter fun a => key a = k') =
        ks.flatMap fun k' => (l.filter fun a => key a ≠ k).filter fun a => key a = k' := by
      refine flatMap_congr fun k' hk' => ?_
      rw [filter_filter]
      refine filter_congr fun a _ => ?_
      have hne : k' ≠ k := fun h => hk (h ▸ hk')
      by_cases ha : key a = k'
      · simp [ha, hne]
      · simp [ha]
    rw [flatMap_cons, hgrps]
    refine (hrest.append_left _).trans ?_
    simpa using filter_append_perm (fun a => decide (key a = k)) l

end Firsts

import Mathlib.Data.List.Forall2

namespace Partial

open List

/-! # Loops over functions that may fail

`List.mapM` and `List.foldlM` in `Option`: a loop succeeds iff each of its rounds does. -/

variable {α β σ : Type}

variable {l as : List α} {f : α → Option β} {bs : List β} {γ : Type} {R : α → β → Prop} {a : α} {s : σ}

theorem mapM_eq_some_iff : l.mapM f = some bs ↔ List.Forall₂ (fun a b => f a = some b) l bs := by
  induction l generalizing bs with
  | nil => simp [eq_comm]
  | cons a l ih =>
    rw [mapM_cons]
    simp only [Option.bind_eq_bind, Option.bind_eq_some_iff, forall₂_cons_left_iff]
    constructor
    · rintro ⟨b, hb, bs', hbs', heq⟩
      exact ⟨b, bs', hb, ih.mp hbs', (Option.some.inj heq).symm⟩
    · rintro ⟨b, bs', hb, hbs', rfl⟩
      exact ⟨b, hb, bs', ih.mpr hbs', rfl⟩

theorem mapM_eq_some_map {g : α → β} (h : ∀ a ∈ l, f a = some (g a)) : l.mapM f = some (l.map g) := by
  rw [mapM_eq_some_iff, forall₂_map_right_iff, forall₂_same]
  exact h

theorem exists_getElem?_of_length (hlen : bs.length = as.length) {i : ℕ} (ha : as[i]? = some a) :
    ∃ b, bs[i]? = some b := by
  have hlt := (List.getElem?_eq_some_iff.mp ha).1
  exact ⟨_, getElem?_eq_getElem (hlen ▸ hlt)⟩

/-- The elements of a list, looked up by their positions. -/
theorem filterMap_getElem?_range (l : List α) : (range l.length).filterMap (l[·]?) = l := by
  induction l with
  | nil => rfl
  | cons a l ih => simpa [range_succ_eq_map, filterMap_map, Function.comp_def] using ih

theorem mem_zipWith {f : α → β → σ} {c : σ} :
    c ∈ zipWith f as bs ↔ ∃ (i : ℕ) (a : α) (b : β), as[i]? = some a ∧ bs[i]? = some b ∧ f a b = c := by
  simp only [mem_iff_getElem?, getElem?_zipWith_eq_some]

theorem map_zipWith_left {f : α → β → σ} {g : σ → γ} {k : α → γ} (h : ∀ a b, g (f a b) = k a)
    (hlen : as.length = bs.length) : (zipWith f as bs).map g = as.map k := by
  induction as generalizing bs with
  | nil => rfl
  | cons a as ih =>
    obtain ⟨b, bs, rfl⟩ := exists_cons_of_length_eq_add_one hlen.symm
    rw [zipWith_cons_cons, map_cons, map_cons, h, ih (Nat.succ.inj hlen)]

theorem map_zipWith_right {f : α → β → σ} {g : σ → γ} {k : β → γ} (h : ∀ a b, g (f a b) = k b)
    (hlen : as.length = bs.length) : (zipWith f as bs).map g = bs.map k := by
  rw [zipWith_comm]
  exact map_zipWith_left (fun b a => h a b) hlen.symm

theorem exists_getElem?_of_forall₂ (h : List.Forall₂ R as bs) {i : ℕ} (ha : as[i]? = some a) :
    ∃ b, bs[i]? = some b ∧ R a b := by
  induction h generalizing i with
  | nil => cases ha
  | @cons a' b as bs hab _ ih =>
    cases i with
    | zero =>
      cases ha
      exact ⟨b, rfl, hab⟩
    | succ i => exact ih ha

theorem exists_left_of_mem (h : List.Forall₂ R as bs) {b : β} (hb : b ∈ bs) : ∃ a ∈ as, R a b := by
  induction h with
  | nil => cases hb
  | @cons a b' as bs hab _ ih =>
    rcases mem_cons.mp hb with rfl | hb
    · exact ⟨a, mem_cons_self, hab⟩
    · obtain ⟨a', ha', hR⟩ := ih hb
      exact ⟨a', mem_cons_of_mem a ha', hR⟩

/-- What each round establishes of its result holds of all results. -/
theorem exists_mapM_forall₂ (h : ∀ a ∈ l, ∃ b, f a = some b ∧ R a b) :
    ∃ bs, l.mapM f = some bs ∧ List.Forall₂ R l bs := by
  induction l with
  | nil => exact ⟨[], rfl, List.Forall₂.nil⟩
  | cons a l ih =>
    obtain ⟨b, hb, hR⟩ := h a mem_cons_self
    obtain ⟨bs, hbs, hall⟩ := ih fun x hx => h x (mem_cons_of_mem a hx)
    exact ⟨b :: bs, by rw [mapM_cons, hb, hbs]; rfl, hall.cons hR⟩

theorem exists_mapM_eq_some (h : ∀ a ∈ l, ∃ b, f a = some b) : ∃ bs, l.mapM f = some bs := by
  obtain ⟨bs, hbs, -⟩ := exists_mapM_forall₂ (R := fun _ _ => True) fun a ha => (h a ha).imp fun b hb => ⟨hb, trivial⟩
  exact ⟨bs, hbs⟩

theorem exists_of_mapM_eq_some (h : l.mapM f = some bs) (ha : a ∈ l) : ∃ b ∈ bs, f a = some b :=
  exists_left_of_mem (R := fun b a => f a = some b) (mapM_eq_some_iff.mp h).flip ha

theorem mem_zipIdx_of_mapM_range {n : ℕ} {f : ℕ → Option β} (h : (range n).mapM f = some bs) {b : β} {i : ℕ}
    (hb : (b, i) ∈ bs.zipIdx) : f i = some b := by
  have hall := mapM_eq_some_iff.mp h
  obtain ⟨hi, hget⟩ := mem_zipIdx' hb
  obtain ⟨hlen, hall⟩ := forall₂_iff_get.mp hall
  rw [hget]
  simpa using hall i (hlen ▸ hi) hi

theorem mapM_bind_mapM {g : β → Option γ} : (l.mapM f).bind (fun bs => bs.mapM g) = l.mapM fun a => (f a).bind g := by
  induction l with
  | nil => rfl
  | cons a l ih =>
    rw [mapM_cons, mapM_cons, ← ih]
    cases f a with
    | none => rfl
    | some b =>
      cases h : l.mapM f with
      | none => cases g b <;> simp
      | some bs => simp

theorem guard_eq_some {p : Prop} [Decidable p] {u : Unit} : (guard p : Option Unit) = some u ↔ p := by
  by_cases hp : p
  · exact ⟨fun _ => hp, fun _ => if_pos hp⟩
  · simp [guard, hp]

variable {f : σ → α → Option σ}

theorem foldlM_cons_eq_some {s' : σ} :
    (a :: l).foldlM f s = some s' ↔ ∃ s1, f s a = some s1 ∧ l.foldlM f s1 = some s' := by
  exact Option.bind_eq_some_iff

/-- A loop all of whose rounds succeed and keep `P` ends in a state with `P`. -/
theorem exists_foldlM {P : σ → Prop} (hstep : ∀ s, ∀ a ∈ l, P s → ∃ s', f s a = some s' ∧ P s')
    (hs : P s) : ∃ s', l.foldlM f s = some s' ∧ P s' := by
  induction l generalizing s with
  | nil => exact ⟨s, rfl, hs⟩
  | cons a l ih =>
    obtain ⟨s1, hs1, hP⟩ := hstep s a mem_cons_self hs
    obtain ⟨s', hs', hP'⟩ := ih (fun s b hb => hstep s b (mem_cons_of_mem a hb)) hP
    exact ⟨s', foldlM_cons_eq_some.mpr ⟨s1, hs1, hs'⟩, hP'⟩

/-- What every round keeps holds at the end of a loop. -/
theorem foldlM_invariant {P : σ → Prop}
    (hstep : ∀ s, ∀ a ∈ l, ∀ s', P s → f s a = some s' → P s') {s' : σ} (hs : P s) (h : l.foldlM f s = some s') :
    P s' := by
  induction l generalizing s with
  | nil => exact Option.some.inj h ▸ hs
  | cons a l ih =>
    obtain ⟨s1, hs1, hrest⟩ := foldlM_cons_eq_some.mp h
    exact ih (fun s b hb => hstep s b (mem_cons_of_mem a hb)) (hstep s a mem_cons_self s1 hs hs1) hrest

end Partial

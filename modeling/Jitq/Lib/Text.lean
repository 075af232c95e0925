import Mathlib

namespace Text

open List

/-! # Texts with separators — when a concatenation can be taken apart again

A text that is put together from parts identifies them only if the separator does not occur in the
parts.

* `append_sep_inj` — a text is cut at the *last* separator if the last part has none;
* `join` — the parts with a separator between them; `join_injective` is its unique reading;
* `append_cut_inj` — a text is cut where a property of its characters ends;
* `isDigit_of_mem_toString` — decimal numbers consist of digits and a sign, so they contain no
  separator, and `append_toString_inj` tells a word and the number behind it apart. -/

variable {α : Type} {c : Char} {xs xs' ys ys' : List α}

/-- A list is cut uniquely at the last `c` if nothing behind it is a `c`. -/
theorem append_sep_inj {c : α} (hy : c ∉ ys) (hy' : c ∉ ys') (h : xs ++ c :: ys = xs' ++ c :: ys') :
    xs = xs' ∧ ys = ys' := by
  -- both parts are compared from the right, where the separator comes first
  suffices ∀ (ys ys' xs xs' : List α), c ∉ ys → c ∉ ys' →
      ys ++ c :: xs = ys' ++ c :: xs' → xs = xs' ∧ ys = ys' by
    have hrev := congrArg reverse h
    simp only [reverse_append, reverse_cons, append_assoc, singleton_append] at hrev
    obtain ⟨hx, hys⟩ := this _ _ _ _ (by simpa using hy) (by simpa using hy') hrev
    exact ⟨reverse_injective hx, reverse_injective hys⟩
  intro ys
  induction ys with
  | nil =>
    intro ys' xs xs' _ hy' heq
    cases ys' with
    | nil => exact ⟨(List.cons.inj heq).2, rfl⟩
    | cons d ys' => exact absurd (List.cons.inj heq).1 (fun hc => hy' (hc ▸ mem_cons_self))
  | cons d ys ih =>
    intro ys' xs xs' hy hy' heq
    cases ys' with
    | nil => exact absurd (List.cons.inj heq).1.symm (fun hc => hy (hc ▸ mem_cons_self))
    | cons d' ys' =>
      obtain ⟨rfl, htail⟩ := List.cons.inj heq
      obtain ⟨hx, rfl⟩ := ih ys' xs xs' (fun hc => hy (mem_cons_of_mem d hc))
        (fun hc => hy' (mem_cons_of_mem d hc)) htail
      exact ⟨hx, rfl⟩

/-- The cut at the last separator, for strings. -/
theorem append_string_inj {a a' b b' : String} (hb : c ∉ b.toList) (hb' : c ∉ b'.toList)
    (h : a ++ String.singleton c ++ b = a' ++ String.singleton c ++ b') : a = a' ∧ b = b' := by
  have hlist := congrArg String.toList h
  simp only [String.toList_append, String.toList_singleton, append_assoc, singleton_append] at hlist
  obtain ⟨ha, hb⟩ := append_sep_inj hb hb' hlist
  exact ⟨String.toList_inj.mp ha, String.toList_inj.mp hb⟩

/-- `sep.join(parts)`. -/
def join (sep : String) : List String → String
  | [] => ""
  | [part] => part
  | part :: part' :: parts => part ++ sep ++ join sep (part' :: parts)

/-- A part before the first separator. -/
theorem append_sep_inj_left {c : α} (hx : c ∉ xs) (hx' : c ∉ xs') (h : xs ++ c :: ys = xs' ++ c :: ys') :
    xs = xs' ∧ ys = ys' := by
  have hrev := congrArg reverse h
  simp only [reverse_append, reverse_cons, append_assoc, singleton_append] at hrev
  obtain ⟨hys, hxs⟩ := append_sep_inj (by simpa using hx) (by simpa using hx') hrev
  exact ⟨reverse_injective hxs, reverse_injective hys⟩

/-- Non-empty lists of parts without the separator can be read back from the joined text. -/
theorem join_injective {parts parts' : List String} (hne : parts ≠ []) (hne' : parts' ≠ [])
    (hparts : ∀ p ∈ parts, c ∉ p.toList) (hparts' : ∀ p ∈ parts', c ∉ p.toList)
    (h : join (String.singleton c) parts = join (String.singleton c) parts') : parts = parts' := by
  induction parts generalizing parts' with
  | nil => exact absurd rfl hne
  | cons p ps ih =>
    obtain ⟨p', ps', rfl⟩ := exists_cons_of_ne_nil hne'
    have hp := hparts p mem_cons_self
    have hp' := hparts' p' mem_cons_self
    have hlist := congrArg String.toList h
    cases ps with
    | nil =>
      cases ps' with
      | nil =>
        have heq : p = p' := h
        rw [heq]
      | cons q' qs' =>
        -- the right text has a separator, the left one has none
        simp only [join, String.toList_append, String.toList_singleton] at hlist
        exact absurd (hlist ▸ hp) (by simp)
    | cons q qs =>
      cases ps' with
      | nil =>
        simp only [join, String.toList_append, String.toList_singleton] at hlist
        exact absurd (hlist.symm ▸ hp') (by simp)
      | cons q' qs' =>
        rw [join, join] at h
        have hcut : p.toList ++ c :: (join (String.singleton c) (q :: qs)).toList =
            p'.toList ++ c :: (join (String.singleton c) (q' :: qs')).toList := by
          simpa only [String.toList_append, String.toList_singleton, append_assoc,
            singleton_append] using congrArg String.toList h
        obtain ⟨hpp, hrest⟩ := append_sep_inj_left hp hp' hcut
        have htail := ih (by simp) (by simp) (fun r hr => hparts r (mem_cons_of_mem p hr))
          (fun r hr => hparts' r (mem_cons_of_mem p' hr)) (String.toList_inj.mp hrest)
        rw [String.toList_inj.mp hpp, htail]

/-! ### Decimal numbers -/

theorem isDigit_of_mem_repr {n : ℕ} (h : c ∈ n.repr.toList) : c.isDigit = true := by
  rw [Nat.repr, String.toList_ofList] at h
  exact Nat.isDigit_of_mem_toDigits (by decide) (by decide) h

/-- A decimal number consists of digits and a sign. -/
theorem isDigit_of_mem_toString {n : ℤ} (h : c ∈ (toString n).toList) : c.isDigit = true ∨ c = '-' := by
  cases n with
  | ofNat m => exact .inl (isDigit_of_mem_repr h)
  | negSucc m =>
    have hneg : (toString (Int.negSucc m)).toList = '-' :: (m + 1).repr.toList := by
      show ("-" ++ (m + 1).repr).toList = _
      rw [String.toList_append]
      rfl
    rw [hneg, mem_cons] at h
    rcases h with rfl | h
    · exact .inr rfl
    · exact .inl (isDigit_of_mem_repr h)

theorem notMem_toString (hc : c.isDigit = false) (hminus : c ≠ '-') (n : ℤ) : c ∉ (toString n).toList := by
  intro h
  rcases isDigit_of_mem_toString h with hdigit | heq
  · rw [hc] at hdigit
    exact Bool.false_ne_true hdigit
  · exact hminus heq

theorem toString_int_injective : Function.Injective (toString : ℤ → String) := fun _ _ h => Int.repr_injective h

/-- A text is cut uniquely behind the characters that satisfy `p`. -/
theorem append_cut_inj {p : α → Prop} (hx : ∀ c ∈ xs, p c) (hx' : ∀ c ∈ xs', p c) (hy : ∀ c ∈ ys.head?, ¬ p c)
    (hy' : ∀ c ∈ ys'.head?, ¬ p c) (h : xs ++ ys = xs' ++ ys') : xs = xs' ∧ ys = ys' := by
  induction xs generalizing xs' with
  | nil =>
    cases xs' with
    | nil => exact ⟨rfl, h⟩
    | cons c xs' =>
      have hhead : c ∈ ys.head? := by rw [show ys = c :: (xs' ++ ys') from h, head?_cons]; rfl
      exact absurd (hx' c mem_cons_self) (hy c hhead)
  | cons c xs ih =>
    cases xs' with
    | nil =>
      have hhead : c ∈ ys'.head? := by rw [show ys' = c :: (xs ++ ys) from h.symm, head?_cons]; rfl
      exact absurd (hx c mem_cons_self) (hy' c hhead)
    | cons c' xs' =>
      obtain ⟨rfl, htail⟩ := List.cons.inj h
      obtain ⟨rfl, hys⟩ := ih (fun d hd => hx d (mem_cons_of_mem c hd))
        (fun d hd => hx' d (mem_cons_of_mem c hd)) htail
      exact ⟨rfl, hys⟩

/-- A word without digits and signs and the number behind it can be told apart. -/
theorem append_toString_inj {a a' : String} {n n' : ℤ} (ha : ∀ c ∈ a.toList, c.isDigit = false ∧ c ≠ '-')
    (ha' : ∀ c ∈ a'.toList, c.isDigit = false ∧ c ≠ '-')
    (h : a ++ toString n = a' ++ toString n') : a = a' ∧ n = n' := by
  have hlist := congrArg String.toList h
  rw [String.toList_append, String.toList_append] at hlist
  have hnum : ∀ m : ℤ, ∀ c ∈ (toString m).toList.head?, ¬ (c.isDigit = false ∧ c ≠ '-') := by
    intro m c hc hboth
    rcases isDigit_of_mem_toString (mem_of_mem_head? hc) with hdigit | hminus
    · exact Bool.false_ne_true (hboth.1.symm.trans hdigit)
    · exact hboth.2 hminus
  obtain ⟨hword, htext⟩ := append_cut_inj ha ha' (hnum n) (hnum n') hlist
  exact ⟨String.toList_inj.mp hword, toString_int_injective (String.toList_inj.mp htext)⟩

end Text
